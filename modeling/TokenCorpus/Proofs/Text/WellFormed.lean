import TokenCorpus.Proofs.Text.Utf8

/-!
Which bytes are well-formed, and where the others break off.

A reader takes a character from the front of some bytes only if they begin with the bytes of that
character. So all bytes begin with those of a text, and if they do not end there, they go on with a
stretch that stays ill-formed wherever the bytes behind it end.
-/

namespace TokenCorpus.Utf8

/-- Bytes that are the UTF-8 form of a text. -/
def WellFormed (bytes : Bytes) : Prop := bytes.toByteArray.IsValidUTF8

theorem wellFormed_iff {bytes : Bytes} : WellFormed bytes ↔ ∃ t : Text, t.bytes = bytes := by
  constructor
  · rintro ⟨t, h⟩
    refine ⟨t, ?_⟩
    have hdata := congrArg (fun b : ByteArray => b.data.toList) h
    simpa [Text.bytes, List.utf8Encode] using hdata.symm
  · rintro ⟨t, rfl⟩
    exact ⟨t, rfl⟩

/-! ## Characters -/

/-- What a lead byte asks of the bytes after it. -/
inductive Leads (lead : UInt8) : List ByteRange → Prop
  | one (hhigh : lead.toNat < 0x80) : Leads lead []
  | two (hlow : 0xC2 ≤ lead.toNat) (hhigh : lead.toNat < 0xE0) : Leads lead [continuation]
  | three {second : ByteRange} (hlow : 0xE0 ≤ lead.toNat) (hhigh : lead.toNat < 0xF0)
      (hfirst : 0x80 ≤ second.first.toNat) (hlast : second.last.toNat ≤ 0xBF)
      (hlong : lead.toNat = 0xE0 → 0xA0 ≤ second.first.toNat)
      (hsurrogate : lead.toNat = 0xED → second.last.toNat < 0xA0) :
      Leads lead [second, continuation]
  | four {second : ByteRange} (hlow : 0xF0 ≤ lead.toNat) (hhigh : lead.toNat < 0xF5)
      (hfirst : 0x80 ≤ second.first.toNat) (hlast : second.last.toNat ≤ 0xBF)
      (hlong : lead.toNat = 0xF0 → 0x90 ≤ second.first.toNat)
      (hlarge : lead.toNat = 0xF4 → second.last.toNat < 0x90) :
      Leads lead [second, continuation, continuation]

theorem leads_of_tail? {lead : UInt8} {ranges : List ByteRange} (h : tail? lead = some ranges) :
    Leads lead ranges := by
  simp only [tail?, UInt8.lt_iff_toNat_lt, ← UInt8.toNat_inj, UInt8.reduceToNat] at h
  -- How many ranges there are tells the case; the bounds are those of the branch.
  split_ifs at h <;> cases h <;> constructor <;>
    first
    | omega
    | simp only [continuation, UInt8.reduceToNat]; omega

/-- The bytes of the character with a given value. -/
theorem utf8EncodeChar_ofNat {v : Nat} (h : v < 0xD800 ∨ 0xDFFF < v ∧ v < 0x110000) :
    String.utf8EncodeChar (.ofNat v) =
      if v ≤ 0x7F then [.ofNat v]
      else if v ≤ 0x7FF then [.ofNat (v / 64 % 32 + 0xC0), lowBits v]
      else if v ≤ 0xFFFF then [.ofNat (v / 4096 % 16 + 0xE0), lowBits (v / 64), lowBits v]
      else [.ofNat (v / 262144 % 8 + 0xF0), lowBits (v / 4096), lowBits (v / 64), lowBits v] := by
  have hvalue : (Char.ofNat v).val.toNat = v := by
    rw [Char.ofNat, dif_pos (show v.isValidChar from h)]
    rfl
  rw [String.utf8EncodeChar.eq_1, hvalue]
  rfl

theorem ofNat_eq {n : Nat} {b : UInt8} (h : n = b.toNat) : UInt8.ofNat n = b := by
  rw [h, UInt8.ofNat_toNat]

theorem lowBits_eq {v : Nat} {b : UInt8} (hb : continuation.holds b) (h : v % 64 = b.toNat % 64) :
    lowBits v = b := by
  simp only [holds_iff, continuation, UInt8.reduceToNat] at hb
  exact ofNat_eq (by omega)

theorem holds_continuation {range : ByteRange} {b : UInt8} (h : range.holds b)
    (hfirst : 0x80 ≤ range.first.toNat) (hlast : range.last.toNat ≤ 0xBF) :
    continuation.holds b := by
  rw [holds_iff] at h ⊢
  exact ⟨Nat.le_trans hfirst h.1, Nat.le_trans h.2 hlast⟩

/-- The bytes that a reader takes for a character are those of the character. -/
theorem utf8EncodeChar_character {lead : UInt8} {ranges : List ByteRange} {following : Bytes}
    (hleads : Leads lead ranges)
    (h : List.Forall₂ (fun range b => range.holds b) ranges following) :
    String.utf8EncodeChar (character lead following) = lead :: following := by
  -- In each case the value is one of those whose form has that length.
  cases hleads with
  | one hhigh =>
    rw [List.forall₂_nil_left_iff.mp h]
    rw [character, List.foldl_nil, List.length_nil, leadBits, utf8EncodeChar_ofNat (by omega),
      if_pos (by omega), ofNat_eq rfl]
  | two hlow hhigh =>
    simp only [List.forall₂_cons_left_iff, List.forall₂_nil_left_iff] at h
    obtain ⟨b, _, hb, rfl, rfl⟩ := h
    have hvalue : character lead [b] = .ofNat (64 * (lead.toNat % 32) + b.toNat % 64) := rfl
    rw [hvalue, utf8EncodeChar_ofNat (by omega), if_neg (by omega), if_pos (by omega),
      ofNat_eq (b := lead) (by omega), lowBits_eq hb (by omega)]
  | three hlow hhigh hfirst hlast hlong hsurrogate =>
    simp only [List.forall₂_cons_left_iff, List.forall₂_nil_left_iff] at h
    obtain ⟨b, _, hb, ⟨c, _, hc, rfl, rfl⟩, rfl⟩ := h
    have hvalue : character lead [b, c] =
      .ofNat (64 * (64 * (lead.toNat % 16) + b.toNat % 64) + c.toNat % 64) := rfl
    have hb' := holds_continuation hb hfirst hlast
    rw [holds_iff] at hb
    rw [hvalue, utf8EncodeChar_ofNat (by omega), if_neg (by omega), if_neg (by omega),
      if_pos (by omega), ofNat_eq (b := lead) (by omega), lowBits_eq hb' (by omega),
      lowBits_eq hc (by omega)]
  | four hlow hhigh hfirst hlast hlong hlarge =>
    simp only [List.forall₂_cons_left_iff, List.forall₂_nil_left_iff] at h
    obtain ⟨b, _, hb, ⟨c, _, hc, ⟨d, _, hd, rfl, rfl⟩, rfl⟩, rfl⟩ := h
    have hvalue : character lead [b, c, d] = .ofNat (64 * (64 * (64 * (lead.toNat % 8) +
      b.toNat % 64) + c.toNat % 64) + d.toNat % 64) := rfl
    have hb' := holds_continuation hb hfirst hlast
    rw [holds_iff] at hb
    rw [hvalue, utf8EncodeChar_ofNat (by omega), if_neg (by omega), if_neg (by omega),
      if_neg (by omega), ofNat_eq (b := lead) (by omega), lowBits_eq hb' (by omega),
      lowBits_eq hc (by omega), lowBits_eq hd (by omega)]

/-- Where all ranges are taken, the bytes up to there lie in them. -/
theorem forall₂_take_of_fitting {ranges : List ByteRange} {bytes : Bytes}
    (h : fitting ranges bytes = ranges.length) :
    List.Forall₂ (fun range b => range.holds b) ranges (bytes.take ranges.length) := by
  induction ranges generalizing bytes with
  | nil => exact .nil
  | cons range ranges ih =>
    cases bytes with
    | nil => simp [fitting] at h
    | cons b bytes =>
      rw [fitting] at h
      split at h
      · next hfirst => exact .cons hfirst (ih (by simpa using h))
      · simp at h

/-- A reader takes a character only from bytes that begin with its own. -/
theorem bytes_of_front {lead : UInt8} {rest : Bytes} {c : Char} {n : Nat}
    (h : front lead rest = (some c, n)) :
    lead :: rest = String.utf8EncodeChar c ++ rest.drop n := by
  rw [front] at h
  cases htail : tail? lead with
  | none => simp [htail] at h
  | some ranges =>
    simp only [htail] at h
    split at h
    · next hfit =>
      have hholds := forall₂_take_of_fitting hfit
      rw [hfit, Prod.mk.injEq, Option.some.injEq] at h
      obtain ⟨rfl, rfl⟩ := h
      rw [utf8EncodeChar_character (leads_of_tail? htail) hholds, List.cons_append,
        List.take_append_drop]
    · simp at h

/-! ## Texts -/

/-- All bytes begin with those of a text, behind which there is nothing or an ill-formed stretch. -/
theorem exists_text (bytes : Bytes) : ∃ t : Text, t.bytes = bytes ∨
    ∃ lead rest n, bytes = t.bytes ++ lead :: rest ∧ front lead rest = (none, n) := by
  induction bytes using decode?.induct with
  | case1 => exact ⟨[], Or.inl rfl⟩
  | case2 lead rest n hfront => exact ⟨[], Or.inr ⟨lead, rest, n, rfl, hfront⟩⟩
  | case3 lead rest c n hfront ih =>
    rw [bytes_of_front hfront]
    obtain ⟨t, hdrop | ⟨lead', rest', n', hdrop, hstretch⟩⟩ := ih
    · refine ⟨c :: t, Or.inl ?_⟩
      rw [← hdrop, Text.bytes, List.flatMap_cons]
      rfl
    · refine ⟨c :: t, Or.inr ⟨lead', rest', n', ?_, hstretch⟩⟩
      rw [hdrop, bytes_cons_append]

/-- What is read from bytes is the text whose bytes they are. -/
theorem decode?_eq_some_iff {bytes : Bytes} {t : Text} :
    decode? bytes = some t ↔ t.bytes = bytes := by
  constructor
  · intro h
    obtain ⟨s, rfl | ⟨lead, rest, n, rfl, hstretch⟩⟩ := exists_text bytes
    · rw [decode?_bytes, Option.some.injEq] at h
      rw [h]
    · rw [decode?_append, decode?, hstretch] at h
      cases h
  · rintro rfl
    exact decode?_bytes t

theorem wellFormed_iff_isSome {bytes : Bytes} : WellFormed bytes ↔ (decode? bytes).isSome := by
  simp only [wellFormed_iff, Option.isSome_iff_exists, decode?_eq_some_iff]

instance (bytes : Bytes) : Decidable (WellFormed bytes) := decidable_of_iff' _ wellFormed_iff_isSome

theorem wellFormed_append_iff (t : Text) (left : Bytes) :
    WellFormed (t.bytes ++ left) ↔ WellFormed left := by
  rw [wellFormed_iff_isSome, wellFormed_iff_isSome, decode?_append, Option.isSome_map]

/-! ## Ill-formed bytes -/

/-- An ill-formed stretch stays one wherever the bytes behind it end. -/
theorem not_wellFormed_of_front {lead : UInt8} {rest : Bytes} {n : Nat}
    (h : front lead rest = (none, n)) (m : Nat) : ¬ WellFormed (lead :: rest.take m) := by
  rw [wellFormed_iff]
  rintro ⟨t, hbytes⟩
  cases t with
  | nil => cases hbytes
  | cons c t =>
    -- The character that was read would be read from all of the bytes as well.
    obtain ⟨lead', rest', _, hc, hfront, -⟩ := exists_front c (Text.bytes t ++ rest.drop m)
    have hall : lead' :: rest' = lead :: rest := by
      rw [← hc, ← bytes_cons_append, hbytes, List.cons_append, List.take_append_drop]
    cases hall
    rw [h] at hfront
    cases hfront

/-- Some bytes are well-formed up to a place, and no further. -/
structure BreakOffAt (bytes : Bytes) (place : Nat) : Prop where
  lt_length : place < bytes.length
  wellFormed_take : WellFormed (bytes.take place)
  not_wellFormed_take : ∀ n, place < n → ¬ WellFormed (bytes.take n)

theorem breakOffAt_byteLength (t : Text) {lead : UInt8} {rest : Bytes} {n : Nat}
    (h : front lead rest = (none, n)) : BreakOffAt (t.bytes ++ lead :: rest) t.byteLength where
  lt_length := by
    rw [List.length_append, Text.length_bytes, List.length_cons]
    omega
  wellFormed_take := wellFormed_iff.mpr ⟨t, by rw [List.take_left' (Text.length_bytes t)]⟩
  not_wellFormed_take := by
    intro m hm
    obtain ⟨k, rfl⟩ := Nat.exists_eq_add_of_lt hm
    rw [← Text.length_bytes, Nat.add_assoc, List.take_length_add_append, List.take_succ_cons,
      wellFormed_append_iff]
    exact not_wellFormed_of_front h k

end TokenCorpus.Utf8
