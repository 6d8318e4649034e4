import TokenCorpus.Proofs.Text.Words
import TokenCorpus.Subtoken

/-!
What subtokens are made of.

A subtoken is never empty, and its characters are those of its token, up to the case of their
letters. So a sort of characters that includes the lowercase of each of its own covers the subtokens
of every token that it covers. A character that is neither a letter nor an underscore comes as often
in them as in the token.
-/

namespace TokenCorpus

namespace Text

/-- Only the capitals have a lowercase of their own. -/
theorem toLower_cases (c : Char) : c.toLower = c ∨ ∃ n < 26, c = Char.ofNat (65 + n) := by
  by_cases hupper : c.val ≥ 'A'.val ∧ c.val ≤ 'Z'.val
  · have hlow : 65 ≤ c.toNat := hupper.1
    have hhigh : c.toNat ≤ 90 := hupper.2
    refine Or.inr ⟨c.toNat - 65, by omega, ?_⟩
    rw [Nat.add_sub_cancel' hlow, Char.ofNat_toNat]
  · exact Or.inl (dif_neg hupper)

/-- What the lowercase letters have is kept by lowercasing. -/
theorem toLower_keeps {P : Char → Prop} (hletter : ∀ n < 26, P (Char.ofNat (65 + n)).toLower)
    {c : Char} (h : P c) : P c.toLower := by
  obtain hsame | ⟨n, hn, rfl⟩ := toLower_cases c
  · rwa [hsame]
  · exact hletter n hn

theorem isBlank_toLower {c : Char} (h : isBlank c = false) : isBlank c.toLower = false :=
  toLower_keeps (P := fun c => isBlank c = false) (by decide) h

end Text

namespace Subtoken

theorem partLength_nil : partLength [] = 0 := by decide

variable {P : Char → Prop}

/-- A part is cut from the front of what is left, so it is not empty where one begins. -/
theorem parts?_spec (hlower : ∀ c, P c → P c.toLower) {s : Text} (hs : ∀ c ∈ s, P c)
    {parts : List Text} (h : parts? s = some parts) :
    ∀ part ∈ parts, part ≠ [] ∧ ∀ c ∈ part, P c := by
  fun_induction parts? s generalizing parts with
  | case1 => simp_all
  | case2 => simp at h
  | case3 s hne body hpart shorter ih =>
    have hbody : ∀ c ∈ body, P c := fun c hc => hs c ((List.dropWhile_suffix _).mem hc)
    obtain ⟨rest, hrest, rfl⟩ := Option.map_eq_some_iff.mp h
    intro part hmem
    cases List.mem_cons.mp hmem with
    | inl hfirst =>
      rw [hfirst]
      refine ⟨?_, fun c hc => ?_⟩
      · intro hnil
        rw [List.map_eq_nil_iff, List.take_eq_nil_iff] at hnil
        obtain hzero | hnil := hnil
        · exact hpart hzero
        · exact hpart (hnil ▸ partLength_nil)
      · obtain ⟨d, hd, rfl⟩ := List.mem_map.mp hc
        exact hlower d (hbody d (List.mem_of_mem_take hd))
    | inr hlater => exact ih (fun c hc => hbody c (List.mem_of_mem_drop hc)) hrest part hlater

theorem leading_append (token : Text) : (leading token).1 ++ (leading token).2 = token := by
  cases token with
  | nil => rfl
  | cons c r =>
    rw [leading]
    split
    · exact List.takeWhile_append_dropWhile
    · exact List.takeWhile_append_dropWhile

end Subtoken

/-- The subtokens of a token are not empty, and their characters are of any sort that has those of the
token and their lowercase. -/
theorem subtokens_spec {P : Char → Prop} (hlower : ∀ c, P c → P c.toLower) {token : Text}
    (hne : token ≠ []) (htoken : ∀ c ∈ token, P c) :
    ∀ part ∈ subtokens token, part ≠ [] ∧ ∀ c ∈ part, P c := by
  have hcut := Subtoken.leading_append token
  rw [subtokens]
  generalize Subtoken.leading token = cut at hcut
  obtain ⟨first, rest⟩ := cut
  have hfirst : ∀ c ∈ first, P c := fun c hc => htoken c (hcut ▸ List.mem_append_left _ hc)
  have hrest : ∀ c ∈ rest, P c := fun c hc => htoken c (hcut ▸ List.mem_append_right _ hc)
  simp only
  cases hparts : Subtoken.parts? rest with
  | none =>
    intro part hmem
    rw [List.mem_singleton.mp hmem]
    exact ⟨hne, htoken⟩
  | some parts =>
    have hspec := Subtoken.parts?_spec hlower hrest hparts
    simp only
    split
    · exact hspec
    · next hsome =>
      intro part hmem
      cases List.mem_cons.mp hmem with
      | inl hhead =>
        rw [hhead]
        exact ⟨hsome, hfirst⟩
      | inr htail => exact hspec part htail

theorem isWord_of_mem_subtokensOfText {t part : Text} (h : part ∈ subtokensOfText t) :
    part.IsWord := by
  obtain ⟨word, hword, hpart⟩ := List.mem_flatMap.mp h
  obtain ⟨hne, hchars⟩ := Text.isWord_of_mem_words hword
  exact subtokens_spec (P := fun c => Text.isBlank c = false) (fun _ => Text.isBlank_toLower) hne
    hchars part hpart

/-! ## What subtokens keep -/

/-- A character that subtokens show as often as their token does. Underscores can be lost, and letters
can change their case. -/
structure Subtoken.Keeps (b : Char) : Prop where
  ne_underscore : b ≠ '_'
  not_letter : b.isAlpha = false

namespace Subtoken

variable {b : Char}

theorem Keeps.toLower_eq_iff (hb : Keeps b) (c : Char) : c.toLower = b ↔ c = b := by
  obtain hsame | ⟨n, hn, rfl⟩ := Text.toLower_cases c
  · rw [hsame]
  · have hletter : ∀ n < 26,
        (Char.ofNat (65 + n)).isAlpha = true ∧ (Char.ofNat (65 + n)).toLower.isAlpha = true := by
      decide
    have hb' := hb.not_letter
    obtain ⟨hupper, hlower⟩ := hletter n hn
    constructor
    · rintro rfl
      rw [hlower] at hb'
      cases hb'
    · rintro rfl
      rw [hupper] at hb'
      cases hb'

theorem Keeps.count_map_toLower (hb : Keeps b) (t : Text) :
    (t.map Char.toLower).count b = t.count b := by
  rw [List.count_eq_countP, List.countP_map, List.count_eq_countP]
  refine List.countP_congr fun c _ => ?_
  simp [hb.toLower_eq_iff]

theorem Keeps.count_parts? (hb : Keeps b) (s : Text) :
    ∀ parts, parts? s = some parts → parts.flatten.count b = s.count b := by
  fun_induction parts? s with
  | case1 => simp
  | case2 => simp
  | case3 s hne body hpart shorter ih =>
    intro parts h
    obtain ⟨rest, hrest, rfl⟩ := Option.map_eq_some_iff.mp h
    have hbody : body.count b = s.count b := Text.count_dropWhile (by simpa using hb.ne_underscore) s
    rw [List.flatten_cons, List.count_append, hb.count_map_toLower, ih _ hrest, ← List.count_append,
      List.take_append_drop, hbody]

theorem Keeps.count_subtokens (hb : Keeps b) (token : Text) :
    (subtokens token).flatten.count b = token.count b := by
  have hcut := Subtoken.leading_append token
  rw [subtokens]
  generalize Subtoken.leading token = cut at hcut
  obtain ⟨first, rest⟩ := cut
  simp only at hcut ⊢
  cases hparts : Subtoken.parts? rest with
  | none => simp
  | some parts =>
    have hrest := hb.count_parts? _ _ hparts
    rw [← hcut, List.count_append, ← hrest]
    simp only
    split
    · next hnil => simp [hnil]
    · simp

theorem Keeps.count_subtokensOfText (hb : Keeps b) (hblank : Text.isBlank b = false) (t : Text) :
    (subtokensOfText t).flatten.count b = t.count b := by
  rw [subtokensOfText, ← Text.count_flatten_words hblank t]
  induction t.words with
  | nil => rfl
  | cons word words ih =>
    rw [List.flatMap_cons, List.flatten_append, List.count_append, hb.count_subtokens, ih,
      List.flatten_cons, List.count_append]

end Subtoken

end TokenCorpus
