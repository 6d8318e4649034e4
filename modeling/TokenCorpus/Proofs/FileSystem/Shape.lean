import TokenCorpus.Proofs.FileSystem.Directories

/-!
The shape of a file system.

The shape is what remains when the contents of files are left out: which names there are, and what
is a directory, a file or a link with its target. The shape decides which directory a path leads to.
-/

namespace TokenCorpus.FileSystem

/-- Two file systems differ at most in the contents of files and in the order of their entries. -/
structure SameShape (fs other : FileSystem) : Prop where
  home_eq : other.home = fs.home
  get?_eq : ∀ location,
    (other.get? location).map (FileNode.refill []) = (fs.get? location).map (FileNode.refill [])

namespace SameShape

variable {fs other : FileSystem}

theorem symm (h : fs.SameShape other) : other.SameShape fs :=
  ⟨h.home_eq.symm, fun location => (h.get?_eq location).symm⟩

theorem exists_get? (h : fs.SameShape other) {location : Location} {node : FileNode}
    (hget : fs.get? location = some node) :
    ∃ node', other.get? location = some node' ∧ node'.refill [] = node.refill [] := by
  have heq := h.get?_eq location
  rw [hget, Option.map_some, Option.map_eq_some_iff] at heq
  exact heq

/-- What is no file is the same in both. -/
theorem get?_of_not_file (h : fs.SameShape other) {location : Location} {node : FileNode}
    (hget : fs.get? location = some node) (hnode : ∀ content, node ≠ .file content) :
    other.get? location = some node := by
  obtain ⟨node', hget', heq⟩ := h.exists_get? hget
  rw [hget']
  cases node with
  | file content => exact absurd rfl (hnode content)
  | directory => rw [FileNode.refill_eq_directory.mp heq]
  | link target =>
    cases node' with
    | link target' => exact congrArg some heq
    | file => simp [FileNode.refill] at heq
    | directory => simp [FileNode.refill] at heq

/-- At a location, the two have the same, or files. -/
theorem get?_eq_or_files (h : fs.SameShape other) (location : Location) :
    other.get? location = fs.get? location ∨
      ∃ content content', fs.get? location = some (.file content) ∧
        other.get? location = some (.file content') := by
  cases hget : fs.get? location with
  | none =>
    have heq := h.get?_eq location
    rw [hget, Option.map_none, Option.map_eq_none_iff] at heq
    exact Or.inl heq
  | some node =>
    cases node with
    | directory => exact Or.inl (h.get?_of_not_file hget (by simp))
    | link target => exact Or.inl (h.get?_of_not_file hget (by simp))
    | file content =>
      obtain ⟨node', hget', heq⟩ := h.exists_get? hget
      cases node' with
      | file content' => exact Or.inr ⟨content, content', rfl, hget'⟩
      | directory => simp [FileNode.refill] at heq
      | link => simp [FileNode.refill] at heq

end SameShape

/-! ## Where paths lead -/

/-- What a path leads to in two file systems differs at most in the contents of a file. -/
inductive Alike : Except FileError Landing → Except FileError Landing → Prop where
  | same (found : Except FileError Landing) : Alike found found
  | files (location : Location) (content content' : Bytes) :
      Alike (.ok (.node location (.file content))) (.ok (.node location (.file content')))

namespace SameShape

variable {fs other : FileSystem} {lookup : Lookup}

theorem landUntilLink_alike (h : fs.SameShape other)
    {jump jump' : Location → List Component → Except FileError Landing}
    (hjump : ∀ dir path, Alike (jump dir path) (jump' dir path)) (dir : Location)
    (path : List Component) :
    Alike (fs.landUntilLink lookup jump dir path) (other.landUntilLink lookup jump' dir path) := by
  induction path generalizing dir with
  | nil => exact .same _
  | cons step rest ih =>
    cases step with
    | here => exact ih dir
    | slash => exact ih dir
    | up => exact ih dir.tail
    | tooLong => exact .same _
    | name name =>
      simp only [landUntilLink]
      split
      · exact .same _
      · obtain hsame | ⟨content, content', hget, hget'⟩ := h.get?_eq_or_files (name :: dir)
        · rw [hsame]
          cases fs.get? (name :: dir) with
          | none => exact .same _
          | some node =>
            cases node with
            | directory => exact ih _
            | file content => exact .same _
            | link target =>
              simp only
              split
              · exact .same _
              · split
                · exact hjump _ _
                · exact hjump _ _
        · rw [hget, hget']
          simp only
          split
          · exact .files _ _ _
          · exact .same _

theorem landFrom_alike (h : fs.SameShape other) (links : Nat) (dir : Location)
    (path : List Component) :
    Alike (fs.landFrom lookup links dir path) (other.landFrom lookup links dir path) := by
  induction links generalizing dir path with
  | zero => exact h.landUntilLink_alike (fun _ _ => .same _) dir path
  | succ links ih => exact h.landUntilLink_alike ih dir path

theorem placeOf_alike (h : fs.SameShape other) (lookup : Lookup) (absolute : Bool)
    (path : List Component) :
    Alike ((fs.placeOf lookup absolute path).map Place.landing)
      ((other.placeOf lookup absolute path).map Place.landing) := by
  have horigin : other.origin absolute = fs.origin absolute := by
    simp only [origin, h.home_eq]
  rw [placeOf_landing, placeOf_landing, horigin]
  exact h.landFrom_alike _ _ _

theorem land_alike (h : fs.SameShape other) (lookup : Lookup) (path : Text) :
    Alike (fs.land lookup path) (other.land lookup path) := by
  have horigin : other.origin (Path.isAbsolute path) = fs.origin (Path.isAbsolute path) := by
    simp only [origin, h.home_eq]
  rw [land_eq, land_eq, horigin]
  split
  · exact .same _
  · split
    · exact .same _
    · split
      · exact .same _
      · exact h.landFrom_alike _ _ _

theorem leadsSomewhere_eq (h : fs.SameShape other) (path : Text) :
    other.leadsSomewhere path = fs.leadsSomewhere path := by
  have halike := h.land_alike .target path
  rw [leadsSomewhere, leadsSomewhere, find_eq, find_eq]
  generalize fs.land .target path = found at halike
  generalize other.land .target path = found' at halike
  cases halike with
  | same => rfl
  | files => rfl

theorem findDirectory_eq (h : fs.SameShape other) (path : Text) :
    other.findDirectory path = fs.findDirectory path := by
  have halike := h.land_alike .target path
  rw [FileSystem.findDirectory_eq, FileSystem.findDirectory_eq]
  generalize fs.land .target path = found at halike
  generalize other.land .target path = found' at halike
  cases halike with
  | same => rfl
  | files => rfl

theorem findDirectory_eq_ok (h : fs.SameShape other) {path : Text} {dir : Location}
    (hfind : fs.findDirectory path = .ok dir) : other.findDirectory path = .ok dir :=
  (h.findDirectory_eq path).trans hfind

theorem isDirectory_eq (h : fs.SameShape other) (path : Text) :
    other.isDirectory path = fs.isDirectory path := by
  rw [Bool.eq_iff_iff, isDirectory_iff_findDirectory, isDirectory_iff_findDirectory,
    h.findDirectory_eq]

end SameShape

/-! ## What is made -/

namespace SameShape

variable {fs other : FileSystem}

theorem insert (h : fs.SameShape other) {dir : Location} {name : Name}
    (isDirectory : fs.get? dir = some .directory) (isFree : fs.get? (name :: dir) = none)
    (isDirectory' : other.get? dir = some .directory) (isFree' : other.get? (name :: dir) = none)
    (node : FileNode) :
    (fs.insert dir name isDirectory isFree node).SameShape
      (other.insert dir name isDirectory' isFree' node) := by
  refine ⟨h.home_eq, fun location => ?_⟩
  by_cases heq : location = name :: dir
  · rw [heq, get?_insert_self, get?_insert_self]
  · rw [get?_insert_of_ne _ _ _ _ heq, get?_insert_of_ne _ _ _ _ heq]
    exact h.get?_eq location

/-- A node is put in the same place in both, or in neither for the same reason. -/
theorem occupy_alike {place : Except FileError (Place fs)} {place' : Except FileError (Place other)}
    (h : Alike (place.map Place.landing) (place'.map Place.landing)) (node : FileNode) :
    (∃ e, fs.occupy place node = .error e ∧ other.occupy place' node = .error e) ∨
      ∃ dir name isDirectory isFree isDirectory' isFree',
        fs.occupy place node = .ok (fs.insert dir name isDirectory isFree node) ∧
        other.occupy place' node = .ok (other.insert dir name isDirectory' isFree' node) := by
  cases place with
  | error e =>
    cases place' with
    | error e' =>
      cases h
      exact Or.inl ⟨e, rfl, rfl⟩
    | ok landed' => cases h
  | ok landed =>
    cases place' with
    | error e' => cases landed <;> cases h
    | ok landed' =>
      cases landed with
      | node =>
        cases landed' with
        | node => exact Or.inl ⟨.alreadyExists, rfl, rfl⟩
        | free => cases h
      | free dir name isDirectory isFree =>
        cases landed' with
        | node => cases h
        | free dir' name' isDirectory' isFree' =>
          cases h
          exact Or.inr ⟨dir, name, isDirectory, isFree, isDirectory', isFree', rfl, rfl⟩

theorem createFile_alike (h : fs.SameShape other) (path : Text) (content : Bytes) :
    (∃ e, fs.createFile path content = .error e ∧ other.createFile path content = .error e) ∨
      ∃ dir name isDirectory isFree isDirectory' isFree',
        fs.createFile path content = .ok (fs.insert dir name isDirectory isFree (.file content)) ∧
        other.createFile path content =
          .ok (other.insert dir name isDirectory' isFree' (.file content)) :=
  occupy_alike (h.land_alike .entry path) (.file content)

/-- Making directories ends alike in both and leaves them in the same shape. -/
def MadeAlike (made made' : FileSystem × Option FileError) : Prop :=
  made.1.SameShape made'.1 ∧ made'.2 = made.2

theorem createDirectory_alike (h : fs.SameShape other) (absolute : Bool) (path : List Component) :
    (∃ e, fs.createDirectory absolute path = .error e ∧
        other.createDirectory absolute path = .error e) ∨
      ∃ made made', fs.createDirectory absolute path = .ok made ∧
        other.createDirectory absolute path = .ok made' ∧ made.SameShape made' := by
  obtain herror | ⟨dir, name, isDirectory, isFree, isDirectory', isFree', hmade, hmade'⟩ :=
    occupy_alike (h.placeOf_alike .entry absolute path) .directory
  · exact Or.inl herror
  · exact Or.inr ⟨_, _, hmade, hmade', h.insert isDirectory isFree isDirectory' isFree' _⟩

theorem settleDirectory_alike (h : fs.SameShape other) (absolute : Bool) (path : List Component) :
    MadeAlike (fs.settleDirectory absolute path) (other.settleDirectory absolute path) := by
  rw [settleDirectory, settleDirectory]
  obtain ⟨e, herror, herror'⟩ | ⟨made, made', hmade, hmade', hshape⟩ :=
    h.createDirectory_alike absolute path
  · rw [herror, herror']
    refine ⟨h, ?_⟩
    have halike := h.placeOf_alike .target absolute path
    simp only
    generalize fs.placeOf .target absolute path = place at halike
    generalize other.placeOf .target absolute path = place' at halike
    cases place with
    | error =>
      cases place' with
      | error => rfl
      | ok => cases halike
    | ok landed =>
      cases place' with
      | error => cases landed <;> cases halike
      | ok landed' =>
        cases landed <;> cases landed' <;> cases halike
        · next found _ _ => cases found <;> rfl
        · rfl
        · rfl
  · rw [hmade, hmade']
    exact ⟨hshape, rfl⟩

theorem createDirectoriesBelow_alike (h : fs.SameShape other) (absolute : Bool)
    (reversed : List Component) :
    MadeAlike (fs.createDirectoriesBelow absolute reversed)
      (other.createDirectoriesBelow absolute reversed) := by
  -- The recursion is on the directories above, which are fewer steps away.
  induction hn : reversed.length using Nat.strongRecOn generalizing reversed with
  | ind n ih =>
    have hsettle := h.settleDirectory_alike absolute reversed.reverse
    rw [createDirectoriesBelow_eq, createDirectoriesBelow_eq]
    obtain ⟨e, herror, herror'⟩ | ⟨made, made', hmade, hmade', -⟩ :=
      h.createDirectory_alike absolute reversed.reverse
    · rw [herror, herror']
      cases e with
      | notFound =>
        simp only
        split
        · exact ⟨h, rfl⟩
        · next last above habove =>
          have hdrop := (List.dropWhile_suffix (l := reversed) (· = .here)).length_le
          have hrest := (List.dropWhile_suffix (l := above) (· = .here)).length_le
          rw [habove, List.length_cons] at hdrop
          split
          · exact hsettle
          · have hbelow := ih (above.dropWhile (· = .here)).length (by omega) _ rfl
            generalize fs.createDirectoriesBelow absolute _ = made at hbelow ⊢
            generalize other.createDirectoriesBelow absolute _ = made' at hbelow ⊢
            obtain ⟨made, refusal⟩ := made
            obtain ⟨made', refusal'⟩ := made'
            obtain ⟨hshape, hsame⟩ := hbelow
            simp only at hshape hsame
            subst hsame
            cases refusal' with
            | none => exact SameShape.settleDirectory_alike hshape absolute reversed.reverse
            | some e => exact ⟨hshape, rfl⟩
      | _ => exact hsettle
    · rw [hmade, hmade']
      exact hsettle

theorem createDirectories_alike (h : fs.SameShape other) (path : Text) :
    MadeAlike (fs.createDirectories path) (other.createDirectories path) := by
  rw [createDirectories, createDirectories]
  split
  · exact ⟨h, rfl⟩
  · split
    · exact ⟨h, rfl⟩
    · split
      · exact ⟨h, rfl⟩
      · exact h.createDirectoriesBelow_alike _ _

end SameShape

/-! ## Growing alike -/

/-- Two file systems of the same shape have gained the same files. -/
structure GrownAlike (before before' after after' : FileSystem) : Prop where
  grown : GrowsBy (FileIn fun _ => True) before after
  grown' : GrowsBy (FileIn fun _ => True) before' after'
  shape_before : before.SameShape before'
  shape : after.SameShape after'
  new_eq : ∀ location, before.get? location = none → after'.get? location = after.get? location

namespace GrownAlike

variable {before before' after after' : FileSystem}

theorem refl (h : before.SameShape before') : GrownAlike before before' before before' := by
  refine ⟨GrowsBy.refl before, GrowsBy.refl before', h, h, fun location hfree => ?_⟩
  obtain hsame | ⟨content, content', hget, -⟩ := h.get?_eq_or_files location
  · exact hsame
  · rw [hfree] at hget
    cases hget

theorem insert (h : GrownAlike before before' after after') {dir : Location} {name : Name}
    (isDirectory : after.get? dir = some .directory) (isFree : after.get? (name :: dir) = none)
    (isDirectory' : after'.get? dir = some .directory) (isFree' : after'.get? (name :: dir) = none)
    (content : Bytes) :
    GrownAlike before before' (after.insert dir name isDirectory isFree (.file content))
      (after'.insert dir name isDirectory' isFree' (.file content)) := by
  have hnew : FileIn (fun _ => True) (name :: dir) (.file content) :=
    ⟨name, dir, content, trivial, rfl, rfl⟩
  refine ⟨h.grown.trans (.insert after isDirectory isFree hnew),
    h.grown'.trans (.insert after' isDirectory' isFree' hnew), h.shape_before,
    h.shape.insert isDirectory isFree isDirectory' isFree' _, fun location hfree => ?_⟩
  by_cases heq : location = name :: dir
  · rw [heq, get?_insert_self, get?_insert_self]
  · rw [get?_insert_of_ne _ _ _ _ heq, get?_insert_of_ne _ _ _ _ heq]
    exact h.new_eq location hfree

/-- A file that is read has the same contents in both, or it was there before with the contents that
it has. -/
theorem read_cases (h : GrownAlike before before' after after') (path : Text) :
    after'.read path = after.read path ∨
      ∃ content content', before.read path = .ok content ∧ before'.read path = .ok content' ∧
        after.read path = .ok content ∧ after'.read path = .ok content' := by
  have halike := h.shape.land_alike .target path
  have hmet : Met before after (before.land .target path) (after.land .target path) :=
    land_met h.grown path
  have hmet' : Met before' after' (before'.land .target path) (after'.land .target path) :=
    land_met h.grown' path
  rw [read_eq, read_eq]
  generalize hland : after.land .target path = found at halike hmet
  generalize hland' : after'.land .target path = found' at halike hmet'
  cases halike with
  | same => exact Or.inl rfl
  | files location content content' =>
    by_cases hfree : before.get? location = none
    · left
      have hsame := h.new_eq location hfree
      rw [get?_of_land hland, get?_of_land hland'] at hsame
      cases hsame
      rfl
    · right
      refine ⟨content, content', ?_, ?_, rfl, rfl⟩
      · rw [read_eq]
        generalize before.land .target path = found at hmet
        cases hmet with
        | nothing => rfl
        | atTheEnd hbefore => exact absurd hbefore hfree
      · rw [read_eq]
        generalize before'.land .target path = found at hmet'
        cases hmet' with
        | nothing => rfl
        | atTheEnd hbefore =>
          obtain hsame | ⟨_, _, -, hthere⟩ := h.shape_before.get?_eq_or_files _
          · exact absurd (hsame.symm.trans hbefore) hfree
          · rw [hbefore] at hthere
            cases hthere

end GrownAlike

/-! ## Other contents -/

theorem get?_refill (fs : FileSystem) (changed : Location) (content : Bytes) (location : Location) :
    (fs.refill changed content).get? location =
      if location = changed then (fs.get? location).map (FileNode.refill content)
      else fs.get? location := by
  by_cases hroot : location = []
  · rw [hroot]
    simp [FileNode.refill]
  · simp only [get?, if_neg hroot, refill, List.find?_map, Option.map_map, Function.comp_def]
    cases hfind : fs.entries.find? (·.1 = location) with
    | none => simp
    | some e =>
      have hlocation : e.1 = location := by simpa using List.find?_some hfind
      simp only [Option.map_some, hlocation]
      split <;> rfl

/-- A file system keeps its shape when a file is given other contents. -/
theorem sameShape_refill (fs : FileSystem) (changed : Location) (content : Bytes) :
    fs.SameShape (fs.refill changed content) := by
  refine ⟨rfl, fun location => ?_⟩
  rw [get?_refill]
  split
  · cases fs.get? location with
    | none => rfl
    | some node => cases node <;> rfl
  · rfl

end TokenCorpus.FileSystem
