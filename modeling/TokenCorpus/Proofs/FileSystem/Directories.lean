import TokenCorpus.Proofs.FileSystem.Joining

/-!
Making directories.

Only directories are added, each where some of the first steps of the path lead, also where an error
ends the work; and without an error the path leads to a directory afterwards.
-/

namespace TokenCorpus.FileSystem

/-- What is added is a directory. -/
def IsDirectory (_ : Location) (node : FileNode) : Prop := node = .directory

/-- Some of the first steps of a path, or all of them, lead to the directory that is added. -/
def IsOnTheWay (fs : FileSystem) (absolute : Bool) (path : List Component) (location : Location)
    (node : FileNode) : Prop :=
  node = .directory ∧ ∃ above, above <+: path ∧
    fs.landFrom .target maxLinks (fs.origin absolute) above = .ok (.node location .directory)

theorem IsOnTheWay.mono {New : Location → FileNode → Prop} {before after : FileSystem}
    (hgrow : GrowsBy New before after) {absolute : Bool} {path longer : List Component}
    (hfirst : path <+: longer) {location : Location} {node : FileNode}
    (h : before.IsOnTheWay absolute path location node) :
    after.IsOnTheWay absolute longer location node := by
  obtain ⟨hnode, above, habove, hland⟩ := h
  have horigin : after.origin absolute = before.origin absolute := by
    simp only [origin, hgrow.home_eq]
  refine ⟨hnode, above, habove.trans hfirst, ?_⟩
  rw [horigin]
  exact landFrom_kept (hgrow.kept _ _) _ _ _ hland

/-- The last step in making a directory: one that is there already will do. -/
def settleDirectory (fs : FileSystem) (absolute : Bool) (path : List Component) :
    FileSystem × Option FileError :=
  match fs.createDirectory absolute path with
  | .ok made => (made, none)
  | .error e =>
    (fs, if fs.placeOf .target absolute path matches .ok (.node _ .directory _) then none
      else some e)

theorem createDirectoriesBelow_eq (fs : FileSystem) (absolute : Bool) (reversed : List Component) :
    fs.createDirectoriesBelow absolute reversed =
      match fs.createDirectory absolute reversed.reverse with
      | .error .notFound =>
        match reversed.dropWhile (· = .here) with
        | [] => (fs, some .notFound)
        | _ :: above =>
          if above.dropWhile (· = .here) = [] then fs.settleDirectory absolute reversed.reverse
          else
            match fs.createDirectoriesBelow absolute (above.dropWhile (· = .here)) with
            | (made, none) => made.settleDirectory absolute reversed.reverse
            | (made, some e) => (made, some e)
      | _ => fs.settleDirectory absolute reversed.reverse := by
  rw [createDirectoriesBelow]
  cases hcreate : fs.createDirectory absolute reversed.reverse with
  | ok made => rfl
  | error e =>
    cases e with
    | notFound =>
      simp only
      split
      · next hnil => rw [hnil]
      · next last above habove =>
        rw [habove]
        rfl
    | _ => rfl

/-- Whether steps lead to a directory. -/
def LeadsToDirectory (fs : FileSystem) (absolute : Bool) (path : List Component) : Prop :=
  ∃ dir, fs.landFrom .target maxLinks (fs.origin absolute) path = .ok (.node dir .directory)

/-- Where a free name has been taken by a node that is no link, the steps that led to the name lead to
the node. -/
theorem landUntilLink_taken {New : Location → FileNode → Prop} {before after : FileSystem}
    (hgrow : GrowsBy New before after) {lookup : Lookup}
    {jump jump' : Location → List Component → Except FileError Landing} {out : Location}
    {taken : Name} {node : FileNode} (htaken : after.get? (taken :: out) = some node)
    (hnode : ∀ target, node ≠ .link target)
    (hjump : ∀ dir path, jump dir path = .ok (.free out taken) →
      jump' dir path = .ok (.node (taken :: out) node))
    (dir : Location) (path : List Component)
    (h : before.landUntilLink lookup jump dir path = .ok (.free out taken)) :
    after.landUntilLink .target jump' dir path = .ok (.node (taken :: out) node) := by
  induction path generalizing dir with
  | nil => simp [landUntilLink] at h
  | cons step rest ih =>
    cases step with
    | here => exact ih dir h
    | slash => exact ih dir h
    | up => exact ih dir.tail h
    | tooLong => simp [landUntilLink] at h
    | name name =>
      simp only [landUntilLink] at h
      split at h
      · simp at h
      · simp only [landUntilLink, Lookup.refuses, reduceCtorEq, decide_false, Bool.false_and,
          Bool.false_eq_true, ↓reduceIte, and_false]
        cases hget : before.get? (name :: dir) with
        | none =>
          rw [hget] at h
          simp only at h
          split at h
          · next hrest =>
            simp only [Except.ok.injEq, Landing.free.injEq] at h
            obtain ⟨rfl, rfl⟩ := h
            rw [htaken, hrest]
            cases node with
            | directory => rfl
            | file content => rfl
            | link target => exact absurd rfl (hnode target)
          · simp at h
        | some found =>
          rw [hget] at h
          rw [hgrow.get?_of_some hget]
          cases found with
          | directory => exact ih _ h
          | file content =>
            simp only at h
            split at h <;> simp at h
          | link target =>
            simp only at h ⊢
            split at h
            · simp at h
            · split at h
              · next habsolute =>
                rw [if_pos habsolute]
                exact hjump _ _ h
              · next habsolute =>
                rw [if_neg habsolute]
                exact hjump _ _ h

theorem landFrom_taken {New : Location → FileNode → Prop} {before after : FileSystem}
    (hgrow : GrowsBy New before after) {lookup : Lookup} {out : Location} {taken : Name}
    {node : FileNode} (htaken : after.get? (taken :: out) = some node)
    (hnode : ∀ target, node ≠ .link target) (links : Nat) (dir : Location) (path : List Component)
    (h : before.landFrom lookup links dir path = .ok (.free out taken)) :
    after.landFrom .target links dir path = .ok (.node (taken :: out) node) := by
  induction links generalizing dir path with
  | zero => exact landUntilLink_taken hgrow htaken hnode (fun _ _ h => by simp at h) dir path h
  | succ links ih => exact landUntilLink_taken hgrow htaken hnode ih dir path h

theorem createDirectory_spec {fs made : FileSystem} {absolute : Bool} {path : List Component}
    (h : fs.createDirectory absolute path = .ok made) :
    GrowsBy (made.IsOnTheWay absolute path) fs made ∧ made.LeadsToDirectory absolute path := by
  have hland := placeOf_landing fs .entry absolute path
  rw [createDirectory, occupy] at h
  generalize fs.placeOf .entry absolute path = found at h hland
  cases found with
  | error e => simp [bind, Except.bind] at h
  | ok place =>
    cases place with
    | node => simp [bind, Except.bind, throw, throwThe, MonadExceptOf.throw] at h
    | free dir name isDirectory isFree =>
      simp only [bind, Except.bind, pure, Except.pure, Except.ok.injEq] at h
      have hgrow : GrowsBy IsDirectory fs made := h ▸ GrowsBy.insert fs isDirectory isFree rfl
      have htaken : made.get? (name :: dir) = some .directory :=
        h ▸ get?_insert_self fs isDirectory isFree _
      have horigin : made.origin absolute = fs.origin absolute := by
        simp only [origin, hgrow.home_eq]
      have hleads : made.landFrom .target maxLinks (made.origin absolute) path =
          .ok (.node (name :: dir) .directory) := by
        rw [horigin]
        exact landFrom_taken hgrow htaken (by simp) _ _ _ hland.symm
      refine ⟨?_, name :: dir, hleads⟩
      have hnew : made.IsOnTheWay absolute path (name :: dir) .directory :=
        ⟨rfl, path, List.prefix_rfl, hleads⟩
      have hmade := GrowsBy.insert fs isDirectory isFree hnew
      rwa [h] at hmade

theorem settleDirectory_spec (fs : FileSystem) (absolute : Bool) (path : List Component) :
    GrowsBy ((fs.settleDirectory absolute path).1.IsOnTheWay absolute path) fs
        (fs.settleDirectory absolute path).1 ∧
      ((fs.settleDirectory absolute path).2 = none →
        (fs.settleDirectory absolute path).1.LeadsToDirectory absolute path) := by
  rw [settleDirectory]
  split
  · next made hmade =>
    obtain ⟨hgrow, hleads⟩ := createDirectory_spec hmade
    exact ⟨hgrow, fun _ => hleads⟩
  · refine ⟨GrowsBy.refl fs, fun hnone => ?_⟩
    have hland := placeOf_landing fs .target absolute path
    rw [LeadsToDirectory, ← hland]
    generalize fs.placeOf .target absolute path = found at hnone
    cases found with
    | error => simp at hnone
    | ok place =>
      cases place with
      | free => simp at hnone
      | node location node =>
        cases node with
        | directory => exact ⟨location, rfl⟩
        | file => simp at hnone
        | link => simp at hnone

theorem createDirectoriesBelow_spec (fs : FileSystem) (absolute : Bool)
    (reversed : List Component) :
    GrowsBy ((fs.createDirectoriesBelow absolute reversed).1.IsOnTheWay absolute reversed.reverse) fs
        (fs.createDirectoriesBelow absolute reversed).1 ∧
      ((fs.createDirectoriesBelow absolute reversed).2 = none →
        (fs.createDirectoriesBelow absolute reversed).1.LeadsToDirectory absolute
          reversed.reverse) := by
  -- The recursion is on the directories above, which are fewer steps away.
  induction hn : reversed.length using Nat.strongRecOn generalizing reversed with
  | ind n ih =>
    rw [createDirectoriesBelow_eq]
    split
    · split
      · exact ⟨GrowsBy.refl fs, fun h => by simp at h⟩
      · next last above habove =>
        have hdrop := (List.dropWhile_suffix (l := reversed) (· = .here)).length_le
        have hrest := (List.dropWhile_suffix (l := above) (· = .here)).length_le
        have hfirst : (above.dropWhile (· = .here)).reverse <+: reversed.reverse := by
          rw [List.reverse_prefix]
          have hsuffix := List.dropWhile_suffix (l := reversed) (· = .here)
          rw [habove] at hsuffix
          exact ((List.dropWhile_suffix _).trans (List.suffix_cons last above)).trans hsuffix
        rw [habove, List.length_cons] at hdrop
        split
        · exact settleDirectory_spec fs absolute reversed.reverse
        · have hbelow := ih (above.dropWhile (· = .here)).length (by omega) _ rfl
          split
          · next made hmade =>
            rw [hmade] at hbelow
            obtain ⟨hgrow, hleads⟩ := settleDirectory_spec made absolute reversed.reverse
            refine ⟨?_, hleads⟩
            exact (hbelow.1.mono fun _ _ hnew => hnew.mono hgrow hfirst).trans hgrow
          · next made e hmade =>
            rw [hmade] at hbelow
            have hsame : GrowsBy IsDirectory made made := GrowsBy.refl made
            exact ⟨hbelow.1.mono fun _ _ hnew => hnew.mono hsame hfirst, fun h => by simp at h⟩
    · exact settleDirectory_spec fs absolute reversed.reverse

/-- Only the directories on the way are made. -/
theorem createDirectories_grows (fs : FileSystem) (path : Text) :
    GrowsBy ((fs.createDirectories path).1.IsOnTheWay (Path.isAbsolute path) (Path.components path))
      fs (fs.createDirectories path).1 := by
  rw [createDirectories]
  split
  · exact GrowsBy.refl fs
  · split
    · exact GrowsBy.refl fs
    · split
      · exact GrowsBy.refl fs
      · have hgrow := (createDirectoriesBelow_spec fs (Path.isAbsolute path)
          (Path.components path).reverse).1
        rwa [List.reverse_reverse] at hgrow

/-- A path that is not empty leads to a directory once its directories have been made. -/
theorem createDirectories_isDirectory {fs made : FileSystem} {path : Text} (hne : path ≠ [])
    (h : fs.createDirectories path = (made, none)) : made.isDirectory path := by
  rw [createDirectories, if_neg hne] at h
  split at h
  · simp at h
  · next hnul =>
    split at h
    · simp at h
    · next hlong =>
      have hspec := (createDirectoriesBelow_spec fs (Path.isAbsolute path)
        (Path.components path).reverse).2
      rw [h, List.reverse_reverse] at hspec
      obtain ⟨dir, hland⟩ := hspec rfl
      rw [isDirectory_iff]
      refine ⟨dir, ?_⟩
      rw [land_eq, if_neg hnul, if_neg hne, if_neg hlong, Path.steps]
      rw [← List.append_nil (Path.components path)] at hland
      split
      · exact landFrom_append (by simp) (Or.inl rfl) (by simp) (fun _ => rfl) _ _ _ hland
      · exact hland

end TokenCorpus.FileSystem
