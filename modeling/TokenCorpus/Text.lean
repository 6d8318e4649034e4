/-!
Texts and their bytes.

A text is a list of characters, so that every scanner of the library recurses on it. What is stored
or measured outside (file contents, offsets, file names) is counted in the bytes of its UTF-8 form.
-/

namespace TokenCorpus

/-- A text, character by character. -/
abbrev Text := List Char

/-- The contents of a file. -/
abbrev Bytes := List UInt8

namespace Text

/-- The UTF-8 form of a text. -/
def bytes (t : Text) : Bytes := t.flatMap String.utf8EncodeChar

/-- The length of the UTF-8 form. -/
def byteLength : Text → Nat
  | [] => 0
  | c :: t => c.utf8Size + byteLength t

theorem length_bytes (t : Text) : t.bytes.length = t.byteLength := by
  induction t with
  | nil => rfl
  | cons c t ih =>
    rw [byteLength, ← ih, bytes, List.flatMap_cons, List.length_append,
      String.length_utf8EncodeChar]
    rfl

/-- Texts are ordered by their bytes. -/
def bytewiseLe (a b : Text) : Bool := decide (a.bytes ≤ b.bytes)

/-- The texts in order, with one space between neighbours. -/
def spaced (pieces : List Text) : Text := [' '].intercalate pieces

@[simp] theorem spaced_nil : spaced [] = [] := rfl

@[simp] theorem spaced_singleton (piece : Text) : spaced [piece] = piece := by
  simp [spaced, List.intercalate]

theorem spaced_cons_cons (piece next : Text) (pieces : List Text) :
    spaced (piece :: next :: pieces) = piece ++ ' ' :: spaced (next :: pieces) := by
  simp [spaced, List.intercalate]

/-- A natural number in decimal. -/
def ofNat (n : Nat) : Text := Nat.toDigits 10 n

/-- The value of a text of decimal digits, leading zeros allowed; `none` for any other text. -/
def decimal? (t : Text) : Option Nat :=
  if t ≠ [] ∧ t.all Char.isDigit then
    some (t.foldl (fun n d => 10 * n + (d.toNat - '0'.toNat)) 0)
  else
    none

end Text

end TokenCorpus
