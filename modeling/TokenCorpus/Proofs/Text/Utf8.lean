import Mathlib.Data.List.Forall2
import TokenCorpus.Utf8

/-!
Reading what has been written.

The bytes of a text are well-formed, and a reader finds the text in them, whether it refuses what is
ill-formed or replaces it. Behind them it goes on as if they had not been there.
-/

namespace TokenCorpus

namespace Utf8

theorem holds_iff {range : ByteRange} {b : UInt8} :
    range.holds b ↔ range.first.toNat ≤ b.toNat ∧ b.toNat ≤ range.last.toNat := by
  simp [ByteRange.holds, UInt8.le_iff_toNat_le]

/-- Bytes that lie in the ranges are all taken. -/
theorem fitting_append {ranges : List ByteRange} {following : Bytes}
    (h : List.Forall₂ (fun range b => range.holds b) ranges following) (rest : Bytes) :
    fitting ranges (following ++ rest) = ranges.length := by
  induction h with
  | nil => cases rest <;> rfl
  | cons hfirst _ ih =>
    rw [List.cons_append, fitting, if_pos hfirst, ih]
    rfl

/-- Where the bytes after a lead byte lie in its ranges, the front is the character of their value. -/
theorem front_append {lead : UInt8} {ranges : List ByteRange} {following : Bytes} {v : Nat}
    (htail : tail? lead = some ranges)
    (h : List.Forall₂ (fun range b => range.holds b) ranges following)
    (hvalue : following.foldl (fun n b => 64 * n + b.toNat % 64)
      (leadBits lead following.length) = v) (rest : Bytes) :
    front lead (following ++ rest) = (some (.ofNat v), following.length) := by
  have hlength := h.length_eq
  rw [front, htail]
  simp only [fitting_append h rest, ↓reduceIte, hlength, List.take_left', character, hvalue]

/-! ## Leading bytes -/

section Leading

variable {lead next : UInt8}

theorem tail?_one (h : lead.toNat < 0x80) : tail? lead = some [] := by
  rw [tail?, if_pos (UInt8.lt_iff_toNat_lt.mpr h)]

theorem tail?_two (hlow : 0xC2 ≤ lead.toNat) (hhigh : lead.toNat < 0xE0) :
    tail? lead = some [continuation] := by
  simp only [tail?, UInt8.lt_iff_toNat_lt, ← UInt8.toNat_inj, UInt8.reduceToNat]
  split_ifs <;> first | rfl | omega

/-- After a byte that leads three, the second must not make an overlong form or a surrogate. -/
theorem tail?_three (hlow : 0xE0 ≤ lead.toNat) (hhigh : lead.toNat < 0xF0)
    (hnext : continuation.holds next) (hlong : lead.toNat = 0xE0 → 0xA0 ≤ next.toNat)
    (hsurrogate : lead.toNat = 0xED → next.toNat < 0xA0) :
    ∃ second, tail? lead = some [second, continuation] ∧ second.holds next := by
  simp only [holds_iff, continuation, UInt8.reduceToNat] at hnext
  simp only [tail?, UInt8.lt_iff_toNat_lt, ← UInt8.toNat_inj, UInt8.reduceToNat]
  split_ifs <;>
    first
    | omega
    | exact ⟨_, rfl, holds_iff.mpr (by simp only [continuation, UInt8.reduceToNat]; omega)⟩

/-- After a byte that leads four, the second must not make an overlong form or too large a value. -/
theorem tail?_four (hlow : 0xF0 ≤ lead.toNat) (hhigh : lead.toNat < 0xF5)
    (hnext : continuation.holds next) (hlong : lead.toNat = 0xF0 → 0x90 ≤ next.toNat)
    (hlarge : lead.toNat = 0xF4 → next.toNat < 0x90) :
    ∃ second, tail? lead = some [second, continuation, continuation] ∧ second.holds next := by
  simp only [holds_iff, continuation, UInt8.reduceToNat] at hnext
  simp only [tail?, UInt8.lt_iff_toNat_lt, ← UInt8.toNat_inj, UInt8.reduceToNat]
  split_ifs <;>
    first
    | omega
    | exact ⟨_, rfl, holds_iff.mpr (by simp only [continuation, UInt8.reduceToNat]; omega)⟩

end Leading

/-! ## Characters -/

/-- The continuation byte with the lowest six bits of a value. -/
def lowBits (v : Nat) : UInt8 := .ofNat (v % 64 + 0x80)

theorem toNat_lowBits (v : Nat) : (lowBits v).toNat = v % 64 + 0x80 := by
  rw [lowBits, UInt8.toNat_ofNat']
  omega

theorem holds_lowBits (v : Nat) : continuation.holds (lowBits v) := by
  rw [holds_iff, toNat_lowBits]
  simp only [continuation, UInt8.reduceToNat]
  omega

theorem toNat_ofNat_lead {n : Nat} (h : n < 256) : (UInt8.ofNat n).toNat = n := by
  rw [UInt8.toNat_ofNat']
  omega

theorem toNat_lowBits_mod (v : Nat) : (lowBits v).toNat % 64 = v % 64 := by
  rw [toNat_lowBits]
  omega

/-- A reader finds a character at the front of its bytes, and takes no others. -/
theorem front_utf8EncodeChar (c : Char) : ∃ lead following,
    String.utf8EncodeChar c = lead :: following ∧
      ∀ rest, front lead (following ++ rest) = (some c, following.length) := by
  have hvalid : c.toNat < 0xD800 ∨ 0xDFFF < c.toNat ∧ c.toNat < 0x110000 := c.valid
  have hchar : c = .ofNat c.toNat := (Char.ofNat_toNat c).symm
  have hbytes := String.utf8EncodeChar.eq_1 c
  rw [show c.val.toNat = c.toNat from rfl] at hbytes
  generalize c.toNat = v at hvalid hchar hbytes
  subst hchar
  -- One case for each length; the bytes are the value in digits to the base 64.
  split_ifs at hbytes with hone htwo hthree
  · have hlead : (UInt8.ofNat v).toNat = v := toNat_ofNat_lead (by omega)
    exact ⟨_, [], hbytes, front_append (tail?_one (by omega)) .nil hlead⟩
  · have hlead : (UInt8.ofNat (v / 64 % 32 + 0xC0)).toNat = v / 64 + 0xC0 := by
      rw [toNat_ofNat_lead] <;> omega
    refine ⟨_, [lowBits v], hbytes, front_append (tail?_two (by omega) (by omega))
      (.cons (holds_lowBits v) .nil) ?_⟩
    simp only [List.foldl_cons, List.foldl_nil, List.length_singleton, leadBits, hlead,
      toNat_lowBits_mod]
    omega
  · have hlead : (UInt8.ofNat (v / 4096 % 16 + 0xE0)).toNat = v / 4096 + 0xE0 := by
      rw [toNat_ofNat_lead] <;> omega
    have hlow : 0xE0 ≤ (UInt8.ofNat (v / 4096 % 16 + 0xE0)).toNat := by omega
    have hnext := toNat_lowBits (v / 64)
    obtain ⟨second, htail, hsecond⟩ := tail?_three hlow (by omega) (holds_lowBits (v / 64))
      (fun _ => by omega) (fun _ => by omega)
    refine ⟨_, [lowBits (v / 64), lowBits v], hbytes,
      front_append htail (.cons hsecond (.cons (holds_lowBits v) .nil)) ?_⟩
    simp only [List.foldl_cons, List.foldl_nil, List.length_cons, List.length_nil, leadBits, hlead,
      toNat_lowBits_mod]
    omega
  · have hlead : (UInt8.ofNat (v / 262144 % 8 + 0xF0)).toNat = v / 262144 + 0xF0 := by
      rw [toNat_ofNat_lead] <;> omega
    have hlow : 0xF0 ≤ (UInt8.ofNat (v / 262144 % 8 + 0xF0)).toNat := by omega
    have hnext := toNat_lowBits (v / 4096)
    obtain ⟨second, htail, hsecond⟩ := tail?_four hlow (by omega) (holds_lowBits (v / 4096))
      (fun _ => by omega) (fun _ => by omega)
    refine ⟨_, [lowBits (v / 4096), lowBits (v / 64), lowBits v], hbytes, front_append htail
      (.cons hsecond (.cons (holds_lowBits (v / 64)) (.cons (holds_lowBits v) .nil))) ?_⟩
    simp only [List.foldl_cons, List.foldl_nil, List.length_cons, List.length_nil, leadBits, hlead,
      toNat_lowBits_mod]
    omega

/-! ## Texts -/

section Front

variable (c : Char) (left : Bytes)

/-- Behind the bytes of a character the reader goes on with what is left. -/
theorem exists_front : ∃ lead rest n, String.utf8EncodeChar c ++ left = lead :: rest ∧
    front lead rest = (some c, n) ∧ rest.drop n = left ∧ n + 1 = c.utf8Size := by
  obtain ⟨lead, following, hbytes, hfront⟩ := front_utf8EncodeChar c
  have hsize := String.length_utf8EncodeChar c
  rw [hbytes, List.length_cons] at hsize
  exact ⟨lead, following ++ left, following.length, by rw [hbytes, List.cons_append], hfront left,
    List.drop_left' rfl, hsize⟩

theorem decode?_cons :
    decode? (String.utf8EncodeChar c ++ left) = (decode? left).map (c :: ·) := by
  obtain ⟨lead, rest, n, hbytes, hfront, hdrop, -⟩ := exists_front c left
  rw [hbytes, decode?, hfront]
  simp only [hdrop]

theorem validLength_cons :
    validLength (String.utf8EncodeChar c ++ left) = validLength left + c.utf8Size := by
  obtain ⟨lead, rest, n, hbytes, hfront, hdrop, hsize⟩ := exists_front c left
  rw [hbytes, validLength, hfront]
  simp only [hdrop, hsize]

theorem lossy_cons : lossy (String.utf8EncodeChar c ++ left) = c :: lossy left := by
  obtain ⟨lead, rest, n, hbytes, hfront, hdrop, -⟩ := exists_front c left
  rw [hbytes, lossy, hfront]
  simp only [hdrop, Option.getD_some]

end Front

theorem bytes_cons_append (c : Char) (t : Text) (left : Bytes) :
    Text.bytes (c :: t) ++ left = String.utf8EncodeChar c ++ (t.bytes ++ left) := by
  rw [Text.bytes, List.flatMap_cons, List.append_assoc]
  rfl

theorem decode?_append (t : Text) (left : Bytes) :
    decode? (t.bytes ++ left) = (decode? left).map (t ++ ·) := by
  induction t with
  | nil => simp [Text.bytes]
  | cons c t ih =>
    rw [bytes_cons_append, decode?_cons, ih, Option.map_map]
    rfl

theorem validLength_append (t : Text) (left : Bytes) :
    validLength (t.bytes ++ left) = validLength left + t.byteLength := by
  induction t with
  | nil => simp [Text.bytes, Text.byteLength]
  | cons c t ih =>
    rw [bytes_cons_append, validLength_cons, ih, Text.byteLength]
    omega

theorem lossy_append (t : Text) (left : Bytes) : lossy (t.bytes ++ left) = t ++ lossy left := by
  induction t with
  | nil => simp [Text.bytes]
  | cons c t ih => rw [bytes_cons_append, lossy_cons, ih, List.cons_append]

theorem decode?_bytes (t : Text) : decode? t.bytes = some t := by
  simpa [decode?] using decode?_append t []

theorem lossy_bytes (t : Text) : lossy t.bytes = t := by
  simpa [lossy] using lossy_append t []

end Utf8
end TokenCorpus
