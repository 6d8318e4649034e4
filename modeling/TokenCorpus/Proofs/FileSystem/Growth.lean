import TokenCorpus.FileSystem.Access

/-!
Growth of file systems.

A build only ever adds nodes. What was there stays as it was, and what is new is of the sort that
the relation names.
-/

namespace TokenCorpus.FileSystem

/-- One file system becomes another by gaining nodes of the sort `New`. -/
structure GrowsBy (New : Location → FileNode → Prop) (before after : FileSystem) : Prop where
  home_eq : after.home = before.home
  entries_eq : ∃ added, after.entries = before.entries ++ added ∧ ∀ e ∈ added, New e.1 e.2

/-- Where an entry lies and what it is, for an entry that is a file directly in one of the
directories `Dir`. -/
def FileIn (Dir : Location → Prop) (location : Location) (node : FileNode) : Prop :=
  ∃ name dir content, Dir dir ∧ location = name :: dir ∧ node = .file content

theorem not_fileIn {Dir : Location → Prop} {dir : Location} (hdir : ¬ Dir dir) (name : Name)
    (node : FileNode) : ¬ FileIn Dir (name :: dir) node := by
  rintro ⟨name', dir', content, hin, heq, -⟩
  cases heq
  exact hdir hin

variable {New : Location → FileNode → Prop} {before middle after : FileSystem}

namespace GrowsBy

theorem refl (fs : FileSystem) : GrowsBy New fs fs :=
  ⟨rfl, [], by simp, by simp⟩

theorem trans (first : GrowsBy New before middle) (second : GrowsBy New middle after) :
    GrowsBy New before after := by
  obtain ⟨hhome, added, hentries, hadded⟩ := first
  obtain ⟨hhome', added', hentries', hadded'⟩ := second
  refine ⟨hhome'.trans hhome, added ++ added', ?_, ?_⟩
  · rw [hentries', hentries, List.append_assoc]
  · intro e he
    cases List.mem_append.mp he with
    | inl he => exact hadded e he
    | inr he => exact hadded' e he

theorem mono {Newer : Location → FileNode → Prop} (h : GrowsBy New before after)
    (himp : ∀ location node, New location node → Newer location node) :
    GrowsBy Newer before after := by
  obtain ⟨hhome, added, hentries, hadded⟩ := h
  exact ⟨hhome, added, hentries, fun e he => himp _ _ (hadded e he)⟩

theorem get?_of_some (h : GrowsBy New before after) {location : Location} {node : FileNode}
    (hget : before.get? location = some node) : after.get? location = some node := by
  by_cases hroot : location = []
  · rw [hroot] at hget ⊢
    exact hget
  · obtain ⟨-, added, hentries, -⟩ := h
    rw [get?_eq_some_iff _ hroot] at hget ⊢
    rw [hentries]
    exact List.mem_append_left _ hget

theorem get?_of_none (h : GrowsBy New before after) {location : Location}
    (hget : after.get? location = none) : before.get? location = none := by
  cases hbefore : before.get? location with
  | none => rfl
  | some node =>
    rw [h.get?_of_some hbefore] at hget
    simp at hget

/-- What is there afterwards was there before or is of the new sort. -/
theorem get?_cases (h : GrowsBy New before after) {location : Location} {node : FileNode}
    (hget : after.get? location = some node) :
    before.get? location = some node ∨ before.get? location = none ∧ New location node := by
  cases hbefore : before.get? location with
  | some old =>
    rw [h.get?_of_some hbefore] at hget
    exact Or.inl hget
  | none =>
    right
    have hroot : location ≠ [] := by
      rintro rfl
      simp at hbefore
    obtain ⟨-, added, hentries, hadded⟩ := h
    rw [get?_eq_some_iff _ hroot, hentries] at hget
    refine ⟨rfl, ?_⟩
    cases List.mem_append.mp hget with
    | inl hold =>
      rw [(get?_eq_some_iff _ hroot).mpr hold] at hbefore
      simp at hbefore
    | inr hnew => exact hadded _ hnew

/-- Where nothing of the new sort can be, nothing changes. -/
theorem get?_eq (h : GrowsBy New before after) {location : Location}
    (hnot : ∀ node, ¬ New location node) : after.get? location = before.get? location := by
  cases hafter : after.get? location with
  | some node =>
    obtain hold | ⟨-, hnew⟩ := h.get?_cases hafter
    · exact hold.symm
    · exact absurd hnew (hnot node)
  | none => exact (h.get?_of_none hafter).symm

/-- Where nothing can be of the new sort, the file system is the same. -/
theorem eq_of_not (h : GrowsBy New before after) (hnot : ∀ location node, ¬ New location node) :
    after = before := by
  obtain ⟨hhome, added, hentries, hadded⟩ := h
  have hnil : added = [] := by
    rw [List.eq_nil_iff_forall_not_mem]
    exact fun e he => hnot _ _ (hadded e he)
  rw [hnil, List.append_nil] at hentries
  cases before
  cases after
  simp only at hhome hentries
  subst hhome hentries
  rfl

/-- A directory in which nothing of the new sort can be keeps its names. -/
theorem names_eq (h : GrowsBy New before after) {dir : Location}
    (hnot : ∀ name node, ¬ New (name :: dir) node) : after.names dir = before.names dir := by
  obtain ⟨-, added, hentries, hadded⟩ := h
  simp only [names, hentries, List.filterMap_append]
  rw [List.filterMap_eq_nil_iff (l := added) |>.mpr, List.append_nil]
  rintro ⟨location, node⟩ he
  cases location with
  | nil => rfl
  | cons name d =>
    have hne : d ≠ dir := by
      rintro rfl
      exact hnot name node (hadded _ he)
    simp [hne]

theorem insert (fs : FileSystem) {dir : Location} {name : Name}
    (isDirectory : fs.get? dir = some .directory) (isFree : fs.get? (name :: dir) = none)
    {node : FileNode} (hnew : New (name :: dir) node) :
    GrowsBy New fs (fs.insert dir name isDirectory isFree node) := by
  refine ⟨rfl, [(name :: dir, node)], rfl, ?_⟩
  intro e he
  rw [List.mem_singleton.mp he]
  exact hnew

end GrowsBy

/-- The node put in by `insert` is found where it was put. -/
theorem get?_insert_self (fs : FileSystem) {dir : Location} {name : Name}
    (isDirectory : fs.get? dir = some .directory) (isFree : fs.get? (name :: dir) = none)
    (node : FileNode) :
    (fs.insert dir name isDirectory isFree node).get? (name :: dir) = some node := by
  rw [get?_eq_some_iff _ (by simp)]
  exact List.mem_append_right _ (List.mem_singleton.mpr rfl)

/-- `insert` changes no other location. -/
theorem get?_insert_of_ne (fs : FileSystem) {dir location : Location} {name : Name}
    (isDirectory : fs.get? dir = some .directory) (isFree : fs.get? (name :: dir) = none)
    (node : FileNode) (hne : location ≠ name :: dir) :
    (fs.insert dir name isDirectory isFree node).get? location = fs.get? location := by
  have hgrow : GrowsBy (fun l n => l = name :: dir ∧ n = node) fs
      (fs.insert dir name isDirectory isFree node) := GrowsBy.insert fs isDirectory isFree ⟨rfl, rfl⟩
  exact hgrow.get?_eq fun _ h => hne h.1

end TokenCorpus.FileSystem
