import TokenCorpus.Proofs.FileSystem.Directories

/-!
File systems that agree where both have something.

Two file systems may each have what the other lacks. They are compatible if a location at which both
have something has the same in both, except that a file of one may lie where the other has a
directory. What can be read in both of them under one path is the same.
-/

namespace TokenCorpus

/-- The nodes that two compatible file systems may have at one location. -/
inductive FileNode.Compatible : FileNode → FileNode → Prop where
  | same (node : FileNode) : Compatible node node
  | directoryFile (content : Bytes) : Compatible .directory (.file content)
  | fileDirectory (content : Bytes) : Compatible (.file content) .directory

namespace FileSystem

structure Compatible (fs other : FileSystem) : Prop where
  home_eq : other.home = fs.home
  nodes : ∀ location node node', fs.get? location = some node → other.get? location = some node' →
    node.Compatible node'

namespace Compatible

variable {fs other : FileSystem} {lookup : Lookup}

theorem landUntilLink_content (h : fs.Compatible other)
    {jump jump' : Location → List Component → Except FileError Landing}
    (hjump : ∀ {dir path location location' content content'},
      jump dir path = .ok (.node location (.file content)) →
      jump' dir path = .ok (.node location' (.file content')) → content' = content)
    {dir location location' : Location} {path : List Component} {content content' : Bytes}
    (hland : fs.landUntilLink lookup jump dir path = .ok (.node location (.file content)))
    (hland' : other.landUntilLink lookup jump' dir path = .ok (.node location' (.file content'))) :
    content' = content := by
  induction path generalizing dir with
  | nil => simp [landUntilLink] at hland
  | cons step rest ih =>
    cases step with
    | here => exact ih hland hland'
    | slash => exact ih hland hland'
    | up => exact ih hland hland'
    | tooLong => simp [landUntilLink] at hland
    | name name =>
      simp only [landUntilLink] at hland hland'
      split at hland
      · cases hland
      · next haccepted =>
        rw [if_neg haccepted] at hland'
        cases hget : fs.get? (name :: dir) with
        | none =>
          rw [hget] at hland
          simp only at hland
          split at hland <;> cases hland
        | some node =>
          cases hget' : other.get? (name :: dir) with
          | none =>
            rw [hget'] at hland'
            simp only at hland'
            split at hland' <;> cases hland'
          | some node' =>
            rw [hget] at hland
            rw [hget'] at hland'
            cases h.nodes _ _ _ hget hget' with
            | same =>
              cases node with
              | directory => exact ih hland hland'
              | file found =>
                simp only at hland hland'
                split at hland
                · next hend =>
                  rw [if_pos hend] at hland'
                  cases hland
                  cases hland'
                  rfl
                · cases hland
              | link target =>
                simp only at hland hland'
                split at hland
                · cases hland
                · next hend =>
                  rw [if_neg hend] at hland'
                  split at hland
                  · next habsolute =>
                    rw [if_pos habsolute] at hland'
                    exact hjump hland hland'
                  · next habsolute =>
                    rw [if_neg habsolute] at hland'
                    exact hjump hland hland'
            | directoryFile found =>
              -- A file ends a path, and there the other file system has a directory.
              simp only at hland hland'
              split at hland'
              · next hend =>
                rw [hend] at hland
                cases hland
              · cases hland'
            | fileDirectory found =>
              simp only at hland hland'
              split at hland
              · next hend =>
                rw [hend] at hland'
                cases hland'
              · cases hland

theorem landFrom_content (h : fs.Compatible other) {links : Nat} {dir location location' : Location}
    {path : List Component} {content content' : Bytes}
    (hland : fs.landFrom lookup links dir path = .ok (.node location (.file content)))
    (hland' : other.landFrom lookup links dir path = .ok (.node location' (.file content'))) :
    content' = content := by
  induction links generalizing dir path location location' content content' with
  | zero => exact h.landUntilLink_content (fun hland => by cases hland) hland hland'
  | succ links ih => exact h.landUntilLink_content ih hland hland'

/-- What can be read in both under one path is the same. -/
theorem content_eq (h : fs.Compatible other) {path : Text} {content content' : Bytes}
    (hread : fs.read path = .ok content) (hread' : other.read path = .ok content') :
    content' = content := by
  obtain ⟨location, hland⟩ := read_eq_ok_iff.mp hread
  obtain ⟨location', hland'⟩ := read_eq_ok_iff.mp hread'
  have horigin : other.origin (Path.isAbsolute path) = fs.origin (Path.isAbsolute path) := by
    simp only [origin, h.home_eq]
  rw [land_eq] at hland hland'
  rw [horigin] at hland'
  split at hland
  · cases hland
  · next hnul =>
    rw [if_neg hnul] at hland'
    split at hland
    · cases hland
    · next hne =>
      rw [if_neg hne] at hland'
      split at hland
      · cases hland
      · next hlong =>
        rw [if_neg hlong] at hland'
        exact h.landFrom_content hland hland'

/-- File systems made of one by making directories are compatible. -/
theorem of_directories {before : FileSystem} (h : GrowsBy IsDirectory before fs)
    (h' : GrowsBy IsDirectory before other) : fs.Compatible other := by
  refine ⟨h'.home_eq.trans h.home_eq.symm, fun location node node' hget hget' => ?_⟩
  obtain hold | ⟨hfree, rfl⟩ := h.get?_cases hget
  · rw [h'.get?_of_some hold, Option.some.injEq] at hget'
    rw [hget']
    exact .same node'
  · obtain hold | ⟨-, rfl⟩ := h'.get?_cases hget'
    · rw [hfree] at hold
      cases hold
    · exact .same .directory

/-- File systems stay compatible when each is given the same file, perhaps in different directories,
if at the place of the file each has at most a directory that the other lacks. -/
theorem insert (h : fs.Compatible other) {dir dir' : Location} {name : Name}
    (isDirectory : fs.get? dir = some .directory) (isFree : fs.get? (name :: dir) = none)
    (isDirectory' : other.get? dir' = some .directory) (isFree' : other.get? (name :: dir') = none)
    (content : Bytes)
    (hthere : ∀ node, fs.get? (name :: dir') = some node → dir' = dir ∨ node = .directory)
    (hthere' : ∀ node, other.get? (name :: dir) = some node → dir = dir' ∨ node = .directory) :
    (fs.insert dir name isDirectory isFree (.file content)).Compatible
      (other.insert dir' name isDirectory' isFree' (.file content)) := by
  refine ⟨h.home_eq, fun location node node' hget hget' => ?_⟩
  by_cases heq : location = name :: dir
  · rw [heq] at hget hget'
    rw [get?_insert_self, Option.some.injEq] at hget
    by_cases hdir : dir = dir'
    · subst hdir
      rw [get?_insert_self, Option.some.injEq] at hget'
      rw [← hget, ← hget']
      exact .same _
    · have hne : name :: dir ≠ name :: dir' := by simpa using hdir
      rw [get?_insert_of_ne _ _ _ _ hne] at hget'
      rw [← hget, (hthere' _ hget').resolve_left hdir]
      exact .fileDirectory content
  · rw [get?_insert_of_ne _ _ _ _ heq] at hget
    by_cases heq' : location = name :: dir'
    · rw [heq'] at hget hget'
      rw [get?_insert_self, Option.some.injEq] at hget'
      have hdir : dir' ≠ dir := by
        rintro rfl
        exact heq heq'
      rw [← hget', (hthere _ hget).resolve_left hdir]
      exact .directoryFile content
    · rw [get?_insert_of_ne _ _ _ _ heq'] at hget'
      exact h.nodes location node node' hget hget'

end Compatible

end FileSystem

end TokenCorpus
