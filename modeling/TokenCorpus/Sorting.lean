/-!
Putting lists in order.

Each element is inserted where it belongs, so sorting recurses on the list alone. Main statements:
nothing is lost, and under a total order every element comes before those that follow it.
-/

namespace TokenCorpus

section

variable {α : Type} (le : α → α → Bool)

/-- The list with `a` before the first element that `a` does not come after. -/
def insertInOrder (a : α) : List α → List α
  | [] => [a]
  | b :: l => if le a b then a :: b :: l else b :: insertInOrder a l

/-- The elements of a list in order. Equal ones keep their places among each other. -/
def inOrder (l : List α) : List α := l.foldr (insertInOrder le) []

theorem insertInOrder_perm (a : α) (l : List α) : (insertInOrder le a l).Perm (a :: l) := by
  induction l with
  | nil => exact .refl _
  | cons b l ih =>
    simp only [insertInOrder]
    split
    · exact .refl _
    · exact (ih.cons b).trans (.swap a b l)

theorem inOrder_perm (l : List α) : (inOrder le l).Perm l := by
  induction l with
  | nil => exact .refl _
  | cons a l ih => exact (insertInOrder_perm le a _).trans (ih.cons a)

theorem mem_inOrder {a : α} {l : List α} : a ∈ inOrder le l ↔ a ∈ l := (inOrder_perm le l).mem_iff

variable {le}

theorem insertInOrder_pairwise (htrans : ∀ a b c, le a b → le b c → le a c)
    (htotal : ∀ a b, le a b ∨ le b a) (a : α) {l : List α} (hl : l.Pairwise (le · ·)) :
    (insertInOrder le a l).Pairwise (le · ·) := by
  induction l with
  | nil => exact List.pairwise_singleton _ _
  | cons b l ih =>
    obtain ⟨hb, hl⟩ := List.pairwise_cons.mp hl
    simp only [insertInOrder]
    split
    · next hab =>
      refine List.pairwise_cons.mpr ⟨fun c hc => ?_, List.pairwise_cons.mpr ⟨hb, hl⟩⟩
      rcases List.mem_cons.mp hc with rfl | hc
      · exact hab
      · exact htrans _ _ _ hab (hb c hc)
    · next hab =>
      refine List.pairwise_cons.mpr ⟨fun c hc => ?_, ih hl⟩
      rcases List.mem_cons.mp ((insertInOrder_perm le a l).mem_iff.mp hc) with rfl | hc
      · exact (htotal c b).resolve_left hab
      · exact hb c hc

theorem inOrder_pairwise (htrans : ∀ a b c, le a b → le b c → le a c)
    (htotal : ∀ a b, le a b ∨ le b a) (l : List α) : (inOrder le l).Pairwise (le · ·) := by
  induction l with
  | nil => exact .nil
  | cons a l ih => exact insertInOrder_pairwise htrans htotal a ih

end

end TokenCorpus
