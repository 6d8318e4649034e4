import TokenCorpus.Text

/-!
Syntax trees.

A tree says only what the encodings read: which nodes carry text, and how the others nest. Any
language whose scripts have such a tree can be mined.
-/

namespace TokenCorpus

/-- The form that a composite node stands for. Scripts have the first five; `other` names a form of
another language. -/
inductive Kind where
  | program
  | list
  | block
  | quote
  | spread
  | other (name : Text)
  deriving DecidableEq, Repr, Inhabited

/-- A node of a syntax tree. Names and literals are the leaves and carry their source text; every
other form is composite, also one without children. -/
inductive Node where
  | identifier (name : Text)
  | literal (value : Text)
  | composite (kind : Kind) (children : List Node)
  deriving Repr, Inhabited

namespace Node

mutual

/-- Decides whether two trees are equal. -/
def decEq : (a b : Node) → Decidable (a = b)
  | identifier a, identifier b => decidable_of_iff (a = b) (by simp)
  | literal a, literal b => decidable_of_iff (a = b) (by simp)
  | composite k as, composite l bs =>
    match decEqAll as bs with
    | isTrue h => decidable_of_iff (k = l) (by simp [h])
    | isFalse h => isFalse (by simp [h])
  | identifier _, literal _ | identifier _, composite _ _ | literal _, identifier _
  | literal _, composite _ _ | composite _ _, identifier _ | composite _ _, literal _ =>
    isFalse (by simp)

/-- Decides whether two rows of trees are equal. -/
def decEqAll : (as bs : List Node) → Decidable (as = bs)
  | [], [] => isTrue rfl
  | a :: as, b :: bs =>
    match decEq a b with
    | isTrue h =>
      match decEqAll as bs with
      | isTrue hs => isTrue (by rw [h, hs])
      | isFalse hs => isFalse (by simp [hs])
    | isFalse h => isFalse (by simp [h])
  | [], _ :: _ | _ :: _, [] => isFalse (by simp)

end

instance : DecidableEq Node := decEq

/-- The children in source order. Leaves have none. -/
def children : Node → List Node
  | composite _ children => children
  | identifier _ | literal _ => []

end Node

end TokenCorpus
