import TokenCorpus.Proofs.FileSystem.Shape

/-!
Writing a file.

A file is written where its path leads, links at the end included: a free name is taken, a file that
is there gets new contents. Nothing else changes, and the path leads to the file afterwards.
-/

namespace TokenCorpus.FileSystem

variable {fs after : FileSystem} {path : Text} {content : Bytes}

/-- The location that a landing is about. -/
def Landing.location : Landing → Location
  | .node location _ => location
  | .free dir name => name :: dir

/-- A name is free only where nothing is. -/
theorem get?_of_land_free {lookup : Lookup} {dir : Location} {name : Name}
    (h : fs.land lookup path = .ok (.free dir name)) : fs.get? (name :: dir) = none := by
  rw [land] at h
  generalize fs.place lookup path = found at h
  cases found with
  | error => cases h
  | ok place =>
    cases place with
    | node => cases h
    | free _ _ _ isFree =>
      cases h
      exact isFree

/-! ## Lookups for writing -/

theorem landUntilLink_target {jump jump' : Location → List Component → Except FileError Landing}
    {landing : Landing}
    (hjump : ∀ dir path, jump dir path = .ok landing → jump' dir path = .ok landing)
    (dir : Location) (path : List Component)
    (h : fs.landUntilLink .file jump dir path = .ok landing) :
    fs.landUntilLink .target jump' dir path = .ok landing := by
  induction path generalizing dir with
  | nil => exact h
  | cons step rest ih =>
    cases step with
    | here => exact ih dir h
    | slash => exact ih dir h
    | up => exact ih dir.tail h
    | tooLong => simp [landUntilLink] at h
    | name name =>
      simp only [landUntilLink] at h
      split at h
      · simp at h
      · simp only [landUntilLink, Lookup.refuses, reduceCtorEq, decide_false, Bool.false_and,
          Bool.false_eq_true, ↓reduceIte, and_false] at h ⊢
        cases hget : fs.get? (name :: dir) with
        | none =>
          rw [hget] at h
          exact h
        | some node =>
          rw [hget] at h
          cases node with
          | directory => exact ih _ h
          | file => exact h
          | link target =>
            simp only at h ⊢
            split at h
            · next habsolute =>
              rw [if_pos habsolute]
              exact hjump _ _ h
            · next habsolute =>
              rw [if_neg habsolute]
              exact hjump _ _ h

theorem landFrom_target {landing : Landing} (links : Nat) (dir : Location) (path : List Component)
    (h : fs.landFrom .file links dir path = .ok landing) :
    fs.landFrom .target links dir path = .ok landing := by
  induction links generalizing dir path with
  | zero => exact landUntilLink_target (fun _ _ h => by simp at h) dir path h
  | succ links ih => exact landUntilLink_target ih dir path h

/-- Where a file may be written is where the path leads. -/
theorem land_target_of_file {landing : Landing} (h : fs.land .file path = .ok landing) :
    fs.land .target path = .ok landing := by
  rw [land_eq] at h ⊢
  split at h
  · simp at h
  · next hnul =>
    rw [if_neg hnul]
    split at h
    · simp at h
    · next hne =>
      rw [if_neg hne]
      split at h
      · simp at h
      · next hlong =>
        rw [if_neg hlong]
        exact landFrom_target _ _ _ h

/-- A path that led to a free name leads to the file that has taken it. -/
theorem land_target_of_taken {dir : Location} {name : Name}
    (isDirectory : fs.get? dir = some .directory) (isFree : fs.get? (name :: dir) = none)
    (h : fs.land .file path = .ok (.free dir name)) :
    (fs.insert dir name isDirectory isFree (.file content)).land .target path =
      .ok (.node (name :: dir) (.file content)) := by
  have hgrow : GrowsBy (fun _ _ => True) fs
      (fs.insert dir name isDirectory isFree (.file content)) :=
    GrowsBy.insert fs isDirectory isFree trivial
  have htaken := get?_insert_self fs isDirectory isFree (.file content)
  have horigin : (fs.insert dir name isDirectory isFree (.file content)).origin
      (Path.isAbsolute path) = fs.origin (Path.isAbsolute path) := by
    simp only [origin, hgrow.home_eq]
  rw [land_eq] at h ⊢
  rw [horigin]
  split at h
  · simp at h
  · next hnul =>
    rw [if_neg hnul]
    split at h
    · simp at h
    · next hne =>
      rw [if_neg hne]
      split at h
      · simp at h
      · next hlong =>
        rw [if_neg hlong]
        exact landFrom_taken hgrow htaken (by simp) _ _ _ h

/-- A path that led to a file still leads to it when it has other contents. -/
theorem land_target_of_refill {location : Location} {old : Bytes}
    (h : fs.land .file path = .ok (.node location (.file old))) :
    (fs.refill location content).land .target path = .ok (.node location (.file content)) := by
  have halike := (sameShape_refill fs location content).land_alike .target path
  rw [land_target_of_file h] at halike
  generalize hland : (fs.refill location content).land .target path = found at halike
  have hget : (fs.refill location content).get? location = some (.file content) := by
    rw [get?_refill, if_pos rfl, get?_of_land h]
    rfl
  cases halike with
  | same =>
    rw [get?_of_land hland] at hget
    cases hget
    rfl
  | files _ _ content' =>
    rw [get?_of_land hland] at hget
    cases hget
    rfl

/-! ## What is written -/

/-- The file to which a path leads has been given contents, or has been made with them. Nothing else
has changed. -/
structure Rewritten (fs after : FileSystem) (path : Text) (content : Bytes) (location : Location) :
    Prop where
  opens : ∃ landing, fs.land .file path = .ok landing ∧ landing.location = location
  wasFile : ∀ node, fs.get? location = some node → ∃ old, node = .file old
  leads : after.land .target path = .ok (.node location (.file content))
  home_eq : after.home = fs.home
  kept : ∀ other, other ≠ location → after.get? other = fs.get? other

/-- A file that can be written is the only one that changes. -/
theorem rewritten_of_write (h : fs.write path content = .ok after) :
    ∃ location, fs.Rewritten after path content location := by
  simp only [write] at h
  have hland : fs.land .file path = (fs.place .file path).map Place.landing := rfl
  cases hplace : fs.place .file path with
  | error e => simp [hplace, bind, Except.bind] at h
  | ok place =>
    rw [hplace] at h hland
    cases place with
    | free dir name isDirectory isFree =>
      simp only [bind, Except.bind, pure, Except.pure, Except.ok.injEq] at h
      subst h
      refine ⟨name :: dir, ⟨_, hland, rfl⟩, ?_, land_target_of_taken isDirectory isFree hland, rfl,
        fun other hother => get?_insert_of_ne fs isDirectory isFree _ hother⟩
      intro node hnode
      rw [isFree] at hnode
      cases hnode
    | node location node isThere =>
      cases node with
      | link => simp [bind, Except.bind, throw, throwThe, MonadExceptOf.throw] at h
      | directory => simp [bind, Except.bind, throw, throwThe, MonadExceptOf.throw] at h
      | file old =>
        simp only [bind, Except.bind, pure, Except.pure, Except.ok.injEq] at h
        subst h
        refine ⟨location, ⟨_, hland, rfl⟩, ?_, land_target_of_refill hland, rfl, ?_⟩
        · intro node hnode
          rw [isThere] at hnode
          cases hnode
          exact ⟨old, rfl⟩
        · intro other hother
          rw [get?_refill, if_neg hother]

namespace Rewritten

variable {location : Location} {other : Text}

theorem get?_location (h : fs.Rewritten after path content location) :
    after.get? location = some (.file content) := get?_of_land h.leads

/-- A path to another node still leads to it. -/
theorem land_of_ne (h : fs.Rewritten after path content location) {there : Location}
    {node : FileNode} (hne : there ≠ location)
    (hland : fs.land .target other = .ok (.node there node)) :
    after.land .target other = .ok (.node there node) := by
  refine land_kept h.home_eq ?_ hland
  intro place found hget hfile
  by_cases hplace : place = location
  · obtain ⟨old, hold⟩ := h.wasFile found (hplace ▸ hget)
    exact absurd ((hfile old hold).1.symm.trans hplace) hne
  · rw [h.kept place hplace, hget]

/-- A path to the file leads to its new contents. -/
theorem land_self (h : fs.Rewritten after path content location) {node : FileNode}
    (hland : fs.land .target other = .ok (.node location node)) :
    after.land .target other = .ok (.node location (.file content)) := by
  obtain ⟨old, rfl⟩ := h.wasFile node (get?_of_land hland)
  have hshape : fs.SameShape after := by
    refine ⟨h.home_eq, fun place => ?_⟩
    by_cases hplace : place = location
    · rw [hplace, h.get?_location, get?_of_land hland]
      rfl
    · rw [h.kept place hplace]
  have halike := hshape.land_alike .target other
  rw [hland] at halike
  generalize hfound : after.land .target other = found at halike
  cases halike with
  | same =>
    have hget := h.get?_location
    rw [get?_of_land hfound] at hget
    rw [Option.some.inj hget]
  | files _ _ content' =>
    have hget := h.get?_location
    rw [get?_of_land hfound] at hget
    rw [Option.some.inj hget]

end Rewritten

/-- Two paths lead to the same node. -/
def Meet (fs : FileSystem) (path other : Text) : Prop :=
  ∃ location node, fs.land .target path = .ok (.node location node) ∧
    fs.land .target other = .ok (.node location node)

/-- What a path reads after another file has been written: the new contents if it leads to that
file, and what it read before otherwise. -/
theorem read_of_write (h : fs.write path content = .ok after) {other : Text} {old : Bytes}
    (hread : fs.read other = .ok old) :
    (fs.Meet path other → after.read other = .ok content) ∧
      (¬ fs.Meet path other → after.read other = .ok old) := by
  obtain ⟨location, hrewritten⟩ := rewritten_of_write h
  obtain ⟨there, hland⟩ := read_eq_ok_iff.mp hread
  obtain ⟨landing, hopens, hlocation⟩ := hrewritten.opens
  have htarget := land_target_of_file hopens
  have hthere := get?_of_land hland
  by_cases hsame : there = location
  · subst hsame
    have hmeet : fs.Meet path other := by
      refine ⟨there, .file old, ?_, hland⟩
      cases landing with
      | node place node =>
        obtain rfl : place = there := hlocation
        have hnode := get?_of_land htarget
        rw [hthere, Option.some.injEq] at hnode
        rw [htarget, ← hnode]
      | free dir name =>
        obtain rfl : name :: dir = there := hlocation
        rw [get?_of_land_free htarget] at hthere
        cases hthere
    exact ⟨fun _ => read_eq_ok_iff.mpr ⟨there, hrewritten.land_self hland⟩,
      fun hnot => absurd hmeet hnot⟩
  · refine ⟨?_, fun _ => read_eq_ok_iff.mpr ⟨there, hrewritten.land_of_ne hsame hland⟩⟩
    rintro ⟨place, node, hpath, hother⟩
    rw [htarget] at hpath
    rw [hland] at hother
    cases hpath
    cases hother
    exact absurd hlocation hsame

end TokenCorpus.FileSystem
