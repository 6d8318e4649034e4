import TokenCorpus.Text

/-!
Blank characters and the words between them.
-/

namespace TokenCorpus.Text

/-- The characters with the property White_Space. -/
def blanks : List (Nat × Nat) :=
  [(0x09, 0x0D), (0x20, 0x20), (0x85, 0x85), (0xA0, 0xA0), (0x1680, 0x1680), (0x2000, 0x200A),
    (0x2028, 0x2029), (0x202F, 0x202F), (0x205F, 0x205F), (0x3000, 0x3000)]

/-- Whether a character is blank. -/
def isBlank (c : Char) : Bool := blanks.any fun (first, last) => first ≤ c.toNat && c.toNat ≤ last

/-- The maximal runs of characters that are not blank, in order. -/
def words (t : Text) : List Text :=
  match h : t.dropWhile isBlank with
  | [] => []
  | c :: r =>
    have shorter : (r.dropWhile (!isBlank ·)).length < t.length := by
      have hdrop := (List.dropWhile_suffix (l := t) isBlank).length_le
      have hrest := (List.dropWhile_suffix (l := r) (!isBlank ·)).length_le
      rw [h, List.length_cons] at hdrop
      omega
    (c :: r.takeWhile (!isBlank ·)) :: words (r.dropWhile (!isBlank ·))
termination_by t.length

end TokenCorpus.Text
