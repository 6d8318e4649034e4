import TokenCorpus.Text

/-!
The bytewise order of texts.

A text can be read back from its bytes, so comparing bytes is a total order in which different texts
never come out equal.
-/

namespace TokenCorpus.Text

theorem bytes_injective {a b : Text} (h : a.bytes = b.bytes) : a = b := by
  have hencode : a.utf8Encode = b.utf8Encode := congrArg List.toByteArray h
  have hdecode := congrArg ByteArray.utf8Decode? hencode
  simpa using hdecode

theorem bytes_append (a b : Text) : bytes (a ++ b) = bytes a ++ bytes b := List.flatMap_append

theorem bytewiseLe_iff {a b : Text} : a.bytewiseLe b ↔ a.bytes ≤ b.bytes := decide_eq_true_iff

theorem bytewiseLe_trans {a b c : Text} (hab : a.bytewiseLe b) (hbc : b.bytewiseLe c) :
    a.bytewiseLe c := by
  rw [bytewiseLe_iff] at hab hbc ⊢
  exact List.le_trans hab hbc

theorem bytewiseLe_total (a b : Text) : a.bytewiseLe b ∨ b.bytewiseLe a := by
  rw [bytewiseLe_iff, bytewiseLe_iff]
  exact List.le_total _ _

/-- Of two different texts in order, the first has the lesser bytes. -/
theorem bytes_lt_of_bytewiseLe {a b : Text} (h : a.bytewiseLe b) (hne : a ≠ b) :
    a.bytes < b.bytes :=
  Std.lt_of_le_of_ne (bytewiseLe_iff.mp h) fun hbytes => hne (bytes_injective hbytes)

end TokenCorpus.Text
