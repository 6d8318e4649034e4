import TokenCorpus.Proofs.FileSystem.Requests

/-!
The path of an entry of a directory leads to that entry.
-/

namespace TokenCorpus

namespace Path

variable {separator : Char}

theorem pieces_ne_nil (t : Text) : pieces separator t ≠ [] := by
  cases t with
  | nil => simp [pieces]
  | cons c t =>
    simp only [pieces]
    split
    · simp
    · split <;> simp

theorem pieces_append (a b : Text) :
    pieces separator (a ++ separator :: b) = pieces separator a ++ pieces separator b := by
  induction a with
  | nil => simp [pieces]
  | cons c a ih =>
    simp only [List.cons_append, pieces, ih]
    split
    · rfl
    · cases h : pieces separator a with
      | nil => exact absurd h (pieces_ne_nil a)
      | cons piece rest => rfl

theorem pieces_of_not_mem {t : Text} (h : separator ∉ t) : pieces separator t = [t] := by
  induction t with
  | nil => rfl
  | cons c t ih =>
    obtain ⟨hc, ht⟩ := List.ne_and_not_mem_of_not_mem_cons h
    rw [pieces, if_neg hc.symm, ih ht]

theorem components_append (a b : Text) :
    components (a ++ '/' :: b) = components a ++ components b := by
  rw [components, pieces_append, List.filterMap_append]
  rfl

theorem components_of_not_mem {t : Text} (h : '/' ∉ t) :
    components t = (component? t).toList := by
  rw [components, pieces_of_not_mem h]
  cases hc : component? t with
  | none => simp [hc]
  | some c => simp [hc]

theorem exists_of_endsInSlash {dir : Text} (h : endsInSlash dir) : ∃ d, dir = d ++ ['/'] := by
  simp only [endsInSlash, decide_eq_true_eq] at h
  obtain ⟨d, hd⟩ := List.getLast?_eq_some_iff.mp h
  exact ⟨d, hd⟩

theorem components_join (dir : Text) {name : Text} (h : '/' ∉ name) :
    components (join dir name) = components dir ++ (component? name).toList := by
  rw [join, ← components_of_not_mem h]
  split
  · next hdir =>
    obtain rfl | hslash := hdir
    · rfl
    · obtain ⟨d, rfl⟩ := exists_of_endsInSlash hslash
      have hnil : components [] = [] := rfl
      rw [List.append_assoc, List.singleton_append, components_append, components_append, hnil,
        List.append_nil]
  · exact components_append dir name

theorem endsInSlash_append (a : Text) {b : Text} (hne : b ≠ []) (h : '/' ∉ b) :
    endsInSlash (a ++ b) = false := by
  rw [endsInSlash, decide_eq_false_iff_not, List.getLast?_append, List.getLast?_eq_some_getLast hne,
    Option.some_or, Option.some_inj]
  intro hlast
  exact h (hlast ▸ List.getLast_mem hne)

theorem endsInSlash_join (dir : Text) {name : Text} (hne : name ≠ []) (h : '/' ∉ name) :
    endsInSlash (join dir name) = false := by
  rw [join]
  split
  · exact endsInSlash_append dir hne h
  · rw [List.append_cons]
    exact endsInSlash_append _ hne h

theorem steps_join (dir : Text) {name : Text} (hne : name ≠ []) (h : '/' ∉ name) :
    steps (join dir name) = components dir ++ (component? name).toList := by
  rw [steps, components_join dir h, endsInSlash_join dir hne h]
  simp

theorem isAbsolute_join (dir : Text) {name : Text} (h : '/' ∉ name) :
    isAbsolute (join dir name) = isAbsolute dir := by
  cases dir with
  | nil =>
    cases name with
    | nil => rfl
    | cons c name =>
      have hc : c ≠ '/' := (List.ne_and_not_mem_of_not_mem_cons h).1.symm
      simp [join, isAbsolute, hc]
  | cons c dir =>
    simp only [join]
    split <;> rfl

theorem holdsNul_join (dir : Text) {name : Text} (h : '\x00' ∉ name) :
    holdsNul (join dir name) = holdsNul dir := by
  rw [Bool.eq_iff_iff, join, holdsNul, holdsNul, List.contains_iff_mem, List.contains_iff_mem]
  split
  · simp [h]
  · simp [h]

theorem join_ne_nil (dir : Text) {name : Text} (h : name ≠ []) : join dir name ≠ [] := by
  rw [join]
  split <;> simp [h]

theorem component?_name (name : Name) : component? name.text = some (.name name) := by
  obtain ⟨hne, -, hhere, hup, -⟩ := name.valid
  simp [component?, hne, hhere, hup, name.valid]

end Path

namespace FileSystem

variable {fs : FileSystem}

/-- If steps lead to a directory, further steps are taken from there, as long as these need no link
to be replaced. The steps may have had a slash behind them. -/
theorem landUntilLink_append {jump jump' : Location → List Component → Except FileError Landing}
    {lookup : Lookup} {behind further : List Component} {out : Location}
    {found : Except FileError Landing} (hlookup : lookup ≠ .file)
    (hbehind : behind = [] ∨ behind = [.slash]) (hfurther : further ≠ [])
    (hfound : fs.landUntilLink lookup jump' out further = found)
    (hjump : ∀ dir path, jump dir (path ++ behind) = .ok (.node out .directory) →
      jump' dir (path ++ further) = found)
    (dir : Location) (path : List Component)
    (h : fs.landUntilLink .target jump dir (path ++ behind) = .ok (.node out .directory)) :
    fs.landUntilLink lookup jump' dir (path ++ further) = found := by
  induction path generalizing dir with
  | nil =>
    have hdir : dir = out := by
      obtain rfl | rfl := hbehind <;> simpa [landUntilLink] using h
    rw [hdir]
    exact hfound
  | cons first rest ih =>
    cases first with
    | here => exact ih dir h
    | slash => exact ih dir h
    | up => exact ih dir.tail h
    | tooLong => simp [landUntilLink] at h
    | name name =>
      simp only [List.cons_append, landUntilLink, Lookup.refuses, hlookup, reduceCtorEq, hfurther,
        decide_false, Bool.false_and, Bool.false_eq_true, ↓reduceIte, and_false, false_and,
        List.append_eq_nil_iff] at h ⊢
      cases hget : fs.get? (name :: dir) with
      | none =>
        rw [hget] at h
        simp only at h
        split at h <;> simp at h
      | some node =>
        rw [hget] at h
        cases node with
        | directory => exact ih _ h
        | file content =>
          simp only at h
          split at h <;> simp at h
        | link target =>
          simp only [← List.append_assoc] at h ⊢
          split at h
          · next habsolute =>
            rw [if_pos habsolute]
            exact hjump _ _ h
          · next habsolute =>
            rw [if_neg habsolute]
            exact hjump _ _ h

theorem landFrom_append {lookup : Lookup} {behind further : List Component} {out : Location}
    {found : Except FileError Landing} (hlookup : lookup ≠ .file)
    (hbehind : behind = [] ∨ behind = [.slash]) (hfurther : further ≠ [])
    (hfound : ∀ jump, fs.landUntilLink lookup jump out further = found)
    (links : Nat) (dir : Location) (path : List Component)
    (h : fs.landFrom .target links dir (path ++ behind) = .ok (.node out .directory)) :
    fs.landFrom lookup links dir (path ++ further) = found := by
  induction links generalizing dir path with
  | zero =>
    exact landUntilLink_append hlookup hbehind hfurther (hfound _) (fun _ _ h => by simp at h)
      dir path h
  | succ links ih =>
    exact landUntilLink_append hlookup hbehind hfurther (hfound _) ih dir path h

/-- The directory for documents: where an output path leads. The empty path stands for the
directory in which paths start. -/
def documentDirectory (fs : FileSystem) (output : Text) : Except FileError Location :=
  if output = [] then .ok fs.home else fs.findDirectory output

theorem documentDirectory_of_findDirectory {fs : FileSystem} {output : Text} {out : Location}
    (h : fs.findDirectory output = .ok out) : fs.documentDirectory output = .ok out := by
  have hne : output ≠ [] := by
    rintro rfl
    rw [findDirectory_eq_ok_iff, land_eq] at h
    simp [Path.holdsNul] at h
  rw [documentDirectory, if_neg hne, h]

theorem not_holdsNul (fs : FileSystem) {output : Text} {out : Location}
    (h : fs.documentDirectory output = .ok out) : ¬ Path.holdsNul output := by
  rw [documentDirectory] at h
  split at h
  · next hnil =>
    rw [hnil]
    simp [Path.holdsNul]
  · intro hnul
    rw [findDirectory_eq_ok_iff, land_eq, if_pos hnul] at h
    simp at h

/-- What lies under a name in a directory. -/
def entryAt (fs : FileSystem) (dir : Location) (name : Name) : Landing :=
  match fs.get? (name :: dir) with
  | none => .free dir name
  | some node => .node (name :: dir) node

/-- The path of an entry leads where the last step leads from the directory, as long as that needs
no link to be replaced. -/
theorem land_join {lookup : Lookup} (hlookup : lookup ≠ .file) {output name : Text} {out : Location}
    {step : Component} {found : Except FileError Landing}
    (hout : fs.documentDirectory output = .ok out) (hslash : '/' ∉ name) (hnul : '\x00' ∉ name)
    (hstep : Path.component? name = some step)
    (hlong : ¬ Path.isTooLong (Path.join output name))
    (hfound : ∀ jump, fs.landUntilLink lookup jump out [step] = found) :
    fs.land lookup (Path.join output name) = found := by
  have hne : name ≠ [] := by
    rintro rfl
    simp [Path.component?] at hstep
  have hsteps := Path.steps_join output hne hslash
  rw [hstep, Option.toList_some] at hsteps
  rw [land_eq, Path.holdsNul_join output hnul, if_neg (Path.join_ne_nil output hne), if_neg hlong,
    Path.isAbsolute_join output hslash, hsteps]
  rw [documentDirectory] at hout
  split at hout
  · next hnil =>
    cases hout
    rw [hnil]
    exact hfound _
  · next hpath =>
    rw [findDirectory_eq_ok_iff, land_eq, if_neg hpath] at hout
    split at hout
    · simp at hout
    · next hnul' =>
      split at hout
      · simp at hout
      · rw [if_neg hnul']
        rw [Path.steps] at hout
        have hbehind : (if Path.endsInSlash output then [Component.slash] else []) = [] ∨
            (if Path.endsInSlash output then [Component.slash] else []) = [.slash] := by
          split <;> simp
        exact landFrom_append hlookup hbehind (by simp) hfound maxLinks _ _ hout

theorem land_join_name {output : Text} {out : Location}
    (hout : fs.documentDirectory output = .ok out) (name : Name) (hnul : '\x00' ∉ name.text)
    (hlong : ¬ Path.isTooLong (Path.join output name.text)) :
    fs.land .entry (Path.join output name.text) = .ok (fs.entryAt out name) := by
  refine land_join (by simp) hout name.valid.2.1 hnul (Path.component?_name name) hlong ?_
  intro jump
  rw [entryAt]
  simp only [landUntilLink, Lookup.refuses]
  cases fs.get? (name :: out) with
  | none => rfl
  | some node => cases node <;> rfl

/-- A file is read under the path of its entry. -/
theorem read_join {output : Text} {out : Location} {name : Name} {content : Bytes}
    (hout : fs.documentDirectory output = .ok out) (hnul : '\x00' ∉ name.text)
    (hlong : ¬ Path.isTooLong (Path.join output name.text))
    (hfile : fs.get? (name :: out) = some (.file content)) :
    fs.read (Path.join output name.text) = .ok content := by
  refine read_eq_ok_iff.mpr ⟨name :: out, ?_⟩
  refine land_join (by simp) hout name.valid.2.1 hnul (Path.component?_name name) hlong ?_
  intro jump
  simp [landUntilLink, Lookup.refuses, hfile]

theorem documentDirectory_grows {Dir : Location → Prop} {before after : FileSystem}
    (hgrow : GrowsBy (FileIn Dir) before after) {output : Text} {out : Location} :
    after.documentDirectory output = .ok out ↔ before.documentDirectory output = .ok out := by
  rw [documentDirectory, documentDirectory]
  split
  · rw [hgrow.home_eq]
  · exact findDirectory_grows hgrow

end FileSystem

end TokenCorpus
