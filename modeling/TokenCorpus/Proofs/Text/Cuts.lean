import Mathlib.Data.List.Basic
import Mathlib.Data.List.TakeWhile
import TokenCorpus.Proofs.Text.Subtokens

/-!
Where a token is cut.

The parts of a token are found by a scan from left to right, which looks ahead and may give up at
any point. They can be told without a scan: whether there is a cut between two neighbours depends on
these two and on the character after them, and whether a token is cut at all depends on which
characters it has and on how it ends. Main statement: the scan finds the pieces between these cuts.
-/

namespace TokenCorpus

namespace Subtoken

/-! ## Classes of characters -/

/-- The classes of characters that pieces are made of. Some punctuation is in a class of its own. -/
inductive CharClass where
  | upper
  | lower
  | digit
  | quote
  | angle
  | square
  | round
  | sole (c : Char)
  deriving DecidableEq, Repr

/-- The class of a character. Underscores have none, and neither have characters that no piece may
hold. -/
def charClass? (c : Char) : Option CharClass :=
  if c.isUpper then some .upper
  else if c.isLower then some .lower
  else if c.isDigit then some .digit
  else if c ∈ ['"', '\''] then some .quote
  else if c ∈ ['<', '>'] then some .angle
  else if c ∈ ['[', ']'] then some .square
  else if c ∈ ['(', ')'] then some .round
  else if c ∈ ['.', '-', ':', '*', '&', '^', '/', '~'] then some (.sole c)
  else none

theorem isUpper_iff {c : Char} : c.isUpper ↔ 'A'.val ≤ c.val ∧ c.val ≤ 'Z'.val :=
  decide_eq_true_iff

theorem isLower_iff {c : Char} : c.isLower ↔ 'a'.val ≤ c.val ∧ c.val ≤ 'z'.val :=
  (Bool.and_eq_true_iff).trans (and_congr decide_eq_true_iff decide_eq_true_iff)

theorem isAlphanum_eq (c : Char) : c.isAlphanum = (c.isUpper || c.isLower || c.isDigit) := rfl

theorem not_isUpper_of_isLower {c : Char} (h : c.isLower) : c.isUpper = false := by
  grind [isUpper_iff, isLower_iff]

theorem not_isLower_of_isUpper {c : Char} (h : c.isUpper) : c.isLower = false := by
  grind [isUpper_iff, isLower_iff]

theorem not_isDigit_of_isUpper {c : Char} (h : c.isUpper) : c.isDigit = false := by
  grind [isUpper_iff, Char.isDigit]

theorem not_isAlpha_of_isDigit {c : Char} (h : c.isDigit) :
    c.isUpper = false ∧ c.isLower = false := by
  grind [isUpper_iff, isLower_iff, Char.isDigit]

theorem charClass?_eq_upper {c : Char} : charClass? c = some .upper ↔ c.isUpper := by
  grind [charClass?]

theorem charClass?_eq_lower {c : Char} : charClass? c = some .lower ↔ c.isLower := by
  grind [charClass?, not_isUpper_of_isLower]

theorem charClass?_eq_digit {c : Char} : charClass? c = some .digit ↔ c.isDigit := by
  grind [charClass?, not_isAlpha_of_isDigit]

theorem charClass?_underscore : charClass? '_' = none := by decide

/-! The classes of punctuation are the groups that run together. -/

theorem isAlphanum_of_mem_punctuation {c : Char} (h : c ∈ punctuation.flatten) :
    c.isAlphanum = false := by
  have hall : punctuation.flatten.all (!·.isAlphanum) := by decide
  simpa using List.all_eq_true.mp hall c h

theorem group?_isSome {c : Char} : (group? c).isSome ↔ c ∈ punctuation.flatten := by
  simp [group?, List.mem_flatten]

theorem group?_of_isAlphanum {c : Char} (h : c.isAlphanum) : group? c = none := by
  rw [← Option.not_isSome_iff_eq_none, group?_isSome]
  intro hmem
  rw [isAlphanum_of_mem_punctuation hmem] at h
  cases h

theorem isSome_charClass?_iff {c : Char} :
    (charClass? c).isSome ↔ c.isAlphanum ∨ (group? c).isSome := by
  have hall : c ∈ punctuation.flatten ↔ c ∈ ['"', '\''] ∨ c ∈ ['<', '>'] ∨ c ∈ ['[', ']'] ∨
      c ∈ ['(', ')'] ∨ c ∈ ['.', '-', ':', '*', '&', '^', '/', '~'] := by
    simp [punctuation]
    grind
  rw [group?_isSome, hall, isAlphanum_eq, charClass?]
  grind

theorem isAlphanum_iff {c : Char} : c.isAlphanum ↔
    charClass? c = some .upper ∨ charClass? c = some .lower ∨ charClass? c = some .digit := by
  rw [charClass?_eq_upper, charClass?_eq_lower, charClass?_eq_digit, isAlphanum_eq,
    Bool.or_eq_true, Bool.or_eq_true, or_assoc]

/-- The characters of a group are those of a class. -/
theorem mem_group_iff {group : Text} {c d : Char} (h : group? c = some group) :
    d ∈ group ↔ charClass? d = charClass? c := by
  have hown : punctuation.all fun group => group.all fun d => group? d = some group := by decide
  have hclasses : punctuation.flatten.all fun c => punctuation.flatten.all fun d =>
      group? d = group? c ↔ charClass? d = charClass? c := by
    decide
  simp only [List.all_eq_true, decide_eq_true_eq] at hown hclasses
  have hc : c ∈ punctuation.flatten := group?_isSome.mp (by rw [h]; rfl)
  have hmem : d ∈ group ↔ group? d = group? c := by
    rw [h]
    refine ⟨hown group (List.mem_of_find?_eq_some h) d, fun hd => ?_⟩
    simpa using List.find?_some hd
  rw [hmem]
  by_cases hd : d ∈ punctuation.flatten
  · exact hclasses c hc d hd
  · have hnone : group? d = none := by rwa [← Option.not_isSome_iff_eq_none, group?_isSome]
    refine iff_of_false (by simp [hnone, h]) fun hsame => ?_
    have hsome : (charClass? d).isSome := by
      rw [hsame, isSome_charClass?_iff, h]
      exact Or.inr rfl
    have hletter : d.isAlphanum := by simpa [hnone] using isSome_charClass?_iff.mp hsome
    rw [isAlphanum_iff, hsame, ← isAlphanum_iff, isAlphanum_of_mem_punctuation hc] at hletter
    cases hletter

/-! ## Cuts -/

/-- Whether there is a cut between the neighbours `x` and `y`, given the character after them. A
capital stays with the lowercase letters that follow it, and is cut from the capitals before it. -/
def isCut (x y : Char) (after : Option Char) : Bool :=
  (charClass? x ≠ charClass? y && !(x.isUpper && y.isLower)) ||
    (x.isUpper && y.isUpper && after.any Char.isLower)

/-- Whether a character and the one after it are in the same piece. -/
def joins (c : Char) : Text → Bool
  | [] => false
  | d :: rest => d ≠ '_' && !isCut c d rest.head?

/-- The pieces of a text, which is cut wherever there is a cut between neighbours. Underscores
belong to no piece, and separate those on either side. -/
def pieces : Text → List Text
  | [] => []
  | c :: rest =>
    if c = '_' then pieces rest
    else if joins c rest then
      match pieces rest with
      | [] => [[c]]
      | piece :: later => (c :: piece) :: later
    else [c] :: pieces rest

/-- The length of the piece at the front. -/
def pieceLength : Text → Nat
  | [] => 0
  | c :: rest => if joins c rest then pieceLength rest + 1 else 1

theorem joins_cons {c d : Char} {rest : Text} (h : joins c (d :: rest)) : d ≠ '_' := by
  simp only [joins, Bool.and_eq_true, decide_eq_true_eq] at h
  exact h.1

/-- The piece at the front, and those of the rest. -/
theorem pieces_cons {c : Char} (hc : c ≠ '_') (rest : Text) :
    pieces (c :: rest) =
      (c :: rest).take (pieceLength (c :: rest)) ::
        pieces ((c :: rest).drop (pieceLength (c :: rest))) := by
  induction rest generalizing c with
  | nil => simp [pieces, pieceLength, joins, hc]
  | cons d rest ih =>
    rw [pieces, if_neg hc, pieceLength]
    split
    · next hjoins =>
      rw [ih (joins_cons hjoins)]
      rfl
    · rfl

theorem pieces_dropWhile (t : Text) : pieces (t.dropWhile (· = '_')) = pieces t := by
  induction t with
  | nil => rfl
  | cons c t ih =>
    by_cases hc : c = '_'
    · rw [List.dropWhile_cons_of_pos (by simpa using hc), ih, pieces, if_pos hc]
    · rw [List.dropWhile_cons_of_neg (by simpa using hc)]

/-- Neighbours without a cut are of one class, or a capital and a lowercase letter. -/
theorem classes_of_joins {c d : Char} {rest : Text} (h : joins c (d :: rest)) :
    charClass? c = charClass? d ∨ c.isUpper ∧ d.isLower := by
  simp only [joins, isCut, Bool.and_eq_true, Bool.not_eq_true', Bool.or_eq_false_iff] at h
  by_cases hsame : charClass? c = charClass? d
  · exact Or.inl hsame
  · exact Or.inr (by simpa [hsame] using h.2.1)

/-- A piece holds only characters that have a class. -/
theorem isSome_of_mem_piece {c : Char} (hc : (charClass? c).isSome) (rest : Text) :
    ∀ d ∈ (c :: rest).take (pieceLength (c :: rest)), (charClass? d).isSome := by
  induction rest generalizing c with
  | nil => simpa [pieceLength, joins] using hc
  | cons d rest ih =>
    rw [pieceLength]
    split
    · next hjoins =>
      rw [List.take_succ_cons, List.forall_mem_cons]
      refine ⟨hc, ih ?_⟩
      obtain hsame | ⟨-, hlower⟩ := classes_of_joins hjoins
      · rwa [← hsame]
      · rw [charClass?_eq_lower.mpr hlower]
        rfl
    · simpa using hc

/-! ## The scan -/

/-- Capitals apart, a piece is a run of characters of one class. -/
theorem joins_of_not_isUpper {c d : Char} {k : CharClass} (hc : charClass? c = some k)
    (hupper : c.isUpper = false) (rest : Text) :
    joins c (d :: rest) = decide (charClass? d = some k) := by
  by_cases hd : charClass? d = some k
  · have hne : d ≠ '_' := by
      rintro rfl
      rw [charClass?_underscore] at hd
      cases hd
    simp [joins, isCut, hc, hd, hupper, hne]
  · simp [joins, isCut, hc, hd, hupper, Ne.symm hd]

theorem pieceLength_of_not_isUpper {c : Char} {k : CharClass} (hc : charClass? c = some k)
    (hk : k ≠ .upper) (rest : Text) :
    pieceLength (c :: rest) = (rest.takeWhile (charClass? · = some k)).length + 1 := by
  induction rest generalizing c with
  | nil => rfl
  | cons d rest ih =>
    have hupper : c.isUpper = false := by
      rw [Bool.eq_false_iff, ne_eq, ← charClass?_eq_upper, hc, Option.some_inj]
      exact hk
    rw [pieceLength, joins_of_not_isUpper hc hupper]
    by_cases hd : charClass? d = some k
    · rw [if_pos (by simpa using hd), ih hd, List.takeWhile_cons_of_pos (by simpa using hd)]
      rfl
    · rw [if_neg (by simpa using hd), List.takeWhile_cons_of_neg (by simpa using hd)]
      rfl

theorem acronymLength_of_not_isUpper {c : Char} (hc : c.isUpper = false) (rest : Text) :
    acronymLength (c :: rest) = 0 := by
  simp [acronymLength, hc]

theorem partLength_lower {c : Char} (hc : c.isLower) (rest : Text) :
    partLength (c :: rest) = (rest.takeWhile Char.isLower).length + 1 := by
  have hupper := not_isUpper_of_isLower hc
  have hgroup : group? c = none :=
    group?_of_isAlphanum (by simp [isAlphanum_eq, hc])
  have hdigit : c.isDigit = false := by
    rw [Bool.eq_false_iff]
    intro hdigit
    rw [(not_isAlpha_of_isDigit hdigit).2] at hc
    cases hc
  simp [partLength, acronymLength_of_not_isUpper hupper, punctuationLength, hgroup, hdigit,
    wordLength, hc]

theorem partLength_digit {c : Char} (hc : c.isDigit) (rest : Text) :
    partLength (c :: rest) = (rest.takeWhile Char.isDigit).length + 1 := by
  have hupper := (not_isAlpha_of_isDigit hc).1
  have hgroup : group? c = none := group?_of_isAlphanum (by simp [Char.isAlphanum, hc])
  simp [partLength, acronymLength_of_not_isUpper hupper, punctuationLength, hgroup, hc]

theorem partLength_punctuation {c : Char} {group : Text} (hc : group? c = some group)
    (rest : Text) : partLength (c :: rest) = (rest.takeWhile (· ∈ group)).length + 1 := by
  have hupper : c.isUpper = false := by
    rw [Bool.eq_false_iff]
    intro hupper
    rw [group?_of_isAlphanum (by simp [isAlphanum_eq, hupper])] at hc
    cases hc
  have hmem : c ∈ group := (mem_group_iff hc).mpr rfl
  simp [partLength, acronymLength_of_not_isUpper hupper, punctuationLength, hc, hmem]

/-- Capitals at the front stand for an acronym, but the last does not if a lowercase letter
follows. -/
theorem acronymLength_upper_upper {c d : Char} (hc : c.isUpper) (hd : d.isUpper) (rest : Text) :
    acronymLength (c :: d :: rest) =
      if rest.head?.any Char.isLower then 1 else acronymLength (d :: rest) + 1 := by
  cases rest with
  | nil => simp [acronymLength, hc, hd]
  | cons e rest =>
    rw [acronymLength, acronymLength]
    by_cases he : e.isUpper
    · have hlower : e.isLower = false := not_isLower_of_isUpper he
      simp [hc, hd, he, hlower]
      split <;> omega
    · cases hlower : e.isLower <;> simp [hc, hd, he, hlower]

theorem acronymLength_pos {c : Char} (hc : c.isUpper) {rest : Text}
    (hrest : rest.head?.any Char.isLower = false) : 0 < acronymLength (c :: rest) := by
  cases rest with
  | nil => simp [acronymLength, hc]
  | cons d rest =>
    by_cases hd : d.isUpper
    · rw [acronymLength_upper_upper hc hd]
      split <;> omega
    · simp only [List.head?_cons, Option.any_some] at hrest
      simp [acronymLength, hc, hd, hrest]

theorem partLength_of_acronym {t : Text} (h : 0 < acronymLength t) :
    partLength t = acronymLength t := by
  rw [partLength, if_pos h]

theorem partLength_upper_lower {c d : Char} (hc : c.isUpper) (hd : d.isLower) (rest : Text) :
    partLength (c :: d :: rest) = (rest.takeWhile Char.isLower).length + 2 := by
  have hupper := not_isUpper_of_isLower hd
  have hgroup : group? c = none :=
    group?_of_isAlphanum (by simp [isAlphanum_eq, hc])
  have hdigit : c.isDigit = false := not_isDigit_of_isUpper hc
  simp [partLength, acronymLength, punctuationLength, wordLength, hc, hd, hupper, hgroup, hdigit]

theorem partLength_upper {c : Char} (hc : c.isUpper) (rest : Text) :
    partLength (c :: rest) = pieceLength (c :: rest) := by
  have hclass := charClass?_eq_upper.mpr hc
  -- The second character decides: an acronym goes on, a word begins, or a lone capital ends.
  induction rest generalizing c with
  | nil => simp [partLength, acronymLength, pieceLength, joins, hc]
  | cons d rest ih =>
    by_cases hupper : d.isUpper
    · have hsame := charClass?_eq_upper.mpr hupper
      have hne : d ≠ '_' := by
        rintro rfl
        cases hupper
      cases hafter : rest.head?.any Char.isLower with
      | true =>
        have hlength : acronymLength (c :: d :: rest) = 1 := by
          rw [acronymLength_upper_upper hc hupper, if_pos hafter]
        rw [partLength_of_acronym (by omega), hlength, pieceLength,
          if_neg (by simp [joins, isCut, hc, hupper, hafter])]
      | false =>
        have hlength : acronymLength (c :: d :: rest) = acronymLength (d :: rest) + 1 := by
          rw [acronymLength_upper_upper hc hupper, if_neg (by simp [hafter])]
        have hpiece : pieceLength (c :: d :: rest) = pieceLength (d :: rest) + 1 := by
          rw [pieceLength, if_pos (by simp [joins, isCut, hclass, hsame, hne, hafter])]
        rw [partLength_of_acronym (by omega), hlength, hpiece, ← ih hupper hsame,
          partLength_of_acronym (acronymLength_pos hupper hafter)]
    · cases hlower : d.isLower with
      | true =>
        have hne : d ≠ '_' := by
          rintro rfl
          cases hlower
        rw [partLength_upper_lower hc hlower, pieceLength,
          if_pos (by simp [joins, isCut, hc, hupper, hlower, hne]),
          pieceLength_of_not_isUpper (charClass?_eq_lower.mpr hlower) (by simp)]
        simp only [charClass?_eq_lower, Bool.decide_eq_true]
      | false =>
        have hlength : acronymLength (c :: d :: rest) = 1 := by
          simp [acronymLength, hc, hupper, hlower]
        have hdiffer : charClass? c ≠ charClass? d := by
          rw [hclass, ne_comm, ne_eq, charClass?_eq_upper]
          exact hupper
        rw [partLength_of_acronym (by omega), hlength, pieceLength,
          if_neg (by simp [joins, isCut, hdiffer, hlower])]

/-- The scan takes the piece at the front. -/
theorem partLength_eq {c : Char} (hc : (charClass? c).isSome) (rest : Text) :
    partLength (c :: rest) = pieceLength (c :: rest) := by
  cases hgroup : group? c with
  | some group =>
    obtain ⟨k, hk⟩ := Option.isSome_iff_exists.mp hc
    have hupper : k ≠ .upper := by
      rintro rfl
      rw [group?_of_isAlphanum (isAlphanum_iff.mpr (Or.inl hk))] at hgroup
      cases hgroup
    rw [partLength_punctuation hgroup, pieceLength_of_not_isUpper hk hupper]
    simp only [mem_group_iff hgroup, hk]
  | none =>
    have hletter : c.isAlphanum := by simpa [hgroup] using isSome_charClass?_iff.mp hc
    obtain hk | hk | hk := isAlphanum_iff.mp hletter
    · exact partLength_upper (charClass?_eq_upper.mp hk) rest
    · rw [partLength_lower (charClass?_eq_lower.mp hk), pieceLength_of_not_isUpper hk (by simp)]
      simp only [charClass?_eq_lower, Bool.decide_eq_true]
    · rw [partLength_digit (charClass?_eq_digit.mp hk), pieceLength_of_not_isUpper hk (by simp)]
      simp only [charClass?_eq_digit, Bool.decide_eq_true]

/-- The scan stops at a character without a class. -/
theorem partLength_eq_zero {c : Char} (hc : charClass? c = none) (rest : Text) :
    partLength (c :: rest) = 0 := by
  have hnone : ¬ (c.isAlphanum ∨ (group? c).isSome) := by
    rw [← isSome_charClass?_iff, hc]
    exact Bool.false_ne_true
  simp only [isAlphanum_eq, not_or, Bool.or_eq_true, Bool.not_eq_true,
    Option.isSome_eq_false_iff, Option.isNone_iff_eq_none] at hnone
  obtain ⟨⟨⟨hupper, hlower⟩, hdigit⟩, hgroup⟩ := hnone
  simp [partLength, acronymLength_of_not_isUpper hupper, punctuationLength, hgroup, hdigit,
    wordLength, hlower, hupper]

/-- What pieces and the underscores between them are made of. -/
def Cuttable (c : Char) : Prop := c = '_' ∨ (charClass? c).isSome

instance : DecidablePred Cuttable := fun c =>
  inferInstanceAs (Decidable (c = '_' ∨ (charClass? c).isSome))

/-- The text has no pieces to its end: it holds a character that no piece may hold, or underscores
come last. -/
def Stuck (t : Text) : Prop := (∃ c ∈ t, ¬ Cuttable c) ∨ t.getLast? = some '_'

instance : DecidablePred Stuck := fun t =>
  inferInstanceAs (Decidable ((∃ c ∈ t, ¬ Cuttable c) ∨ t.getLast? = some '_'))

theorem pieceLength_pos (c : Char) (rest : Text) : 0 < pieceLength (c :: rest) := by
  rw [pieceLength]
  split <;> omega

theorem not_stuck_nil : ¬ Stuck [] := by simp [Stuck]

theorem stuck_append {s t : Text} (hs : ∀ c ∈ s, Cuttable c)
    (hlast : t ≠ [] ∨ s.getLast? ≠ some '_') : Stuck (s ++ t) ↔ Stuck t := by
  have hmem : (∃ c ∈ s ++ t, ¬ Cuttable c) ↔ ∃ c ∈ t, ¬ Cuttable c := by
    constructor
    · rintro ⟨c, hc, hnot⟩
      exact ⟨c, (List.mem_append.mp hc).resolve_left fun h => hnot (hs c h), hnot⟩
    · rintro ⟨c, hc, hnot⟩
      exact ⟨c, List.mem_append_right s hc, hnot⟩
  have hend : (s ++ t).getLast? = some '_' ↔ t.getLast? = some '_' := by
    by_cases ht : t = []
    · simpa [ht] using hlast
    · rw [List.getLast?_append_of_ne_nil s ht]
  exact or_congr hmem hend

/-- Underscores at the front matter only if nothing else follows. -/
theorem stuck_dropWhile {t : Text} (h : t.dropWhile (· = '_') ≠ []) :
    Stuck (t.dropWhile (· = '_')) ↔ Stuck t := by
  have hunderscores : ∀ c ∈ t.takeWhile (· = '_'), Cuttable c := fun c hc =>
    Or.inl (by simpa using List.mem_takeWhile_imp hc)
  rw [← stuck_append hunderscores (Or.inl h), List.takeWhile_append_dropWhile]

/-- A piece does not make the text before it stuck, nor the text after it. -/
theorem stuck_drop {c : Char} (hc : (charClass? c).isSome) (rest : Text) :
    Stuck ((c :: rest).drop (pieceLength (c :: rest))) ↔ Stuck (c :: rest) := by
  have hpiece := isSome_of_mem_piece hc rest
  have hlast : ((c :: rest).take (pieceLength (c :: rest))).getLast? ≠ some '_' := by
    intro h
    have hsome := hpiece '_' (List.mem_of_getLast? h)
    rw [charClass?_underscore] at hsome
    cases hsome
  rw [← stuck_append (fun d hd => Or.inr (hpiece d hd)) (Or.inr hlast), List.take_append_drop]

theorem stuck_of_all_underscores {t : Text} (hne : t ≠ []) (h : t.dropWhile (· = '_') = []) :
    Stuck t := by
  have hall : ∀ c ∈ t, c = '_' := by simpa using List.dropWhile_eq_nil_iff.mp h
  refine Or.inr ?_
  rw [List.getLast?_eq_some_getLast hne, hall _ (List.getLast_mem hne)]

theorem ne_underscore_of_dropWhile {t rest : Text} {c : Char}
    (h : t.dropWhile (· = '_') = c :: rest) : c ≠ '_' := by
  have hhead := List.head?_dropWhile_not (· = '_') t
  simpa [h] using hhead

/-- The scan finds the pieces, unless the text is stuck. -/
theorem parts?_eq (s : Text) :
    parts? s = if Stuck s then none else some ((pieces s).map (·.map Char.toLower)) := by
  fun_induction parts? s with
  | case1 => simp [not_stuck_nil, pieces]
  | case2 s hne body hzero =>
    have hstuck : Stuck s := by
      cases hbody : body with
      | nil => exact stuck_of_all_underscores hne hbody
      | cons c rest =>
        have hnone : charClass? c = none := by
          rw [← Option.not_isSome_iff_eq_none]
          intro hsome
          rw [hbody, partLength_eq hsome] at hzero
          exact (pieceLength_pos c rest).ne' hzero
        refine Or.inl ⟨c, (List.dropWhile_suffix _).mem (hbody ▸ List.mem_cons_self), ?_⟩
        simp [Cuttable, ne_underscore_of_dropWhile hbody, hnone]
    rw [if_pos hstuck]
  | case3 s hne body hpart shorter ih =>
    obtain ⟨c, rest, hbody⟩ : ∃ c rest, body = c :: rest := by
      refine List.exists_cons_of_ne_nil ?_
      rintro hnil
      exact hpart (hnil ▸ partLength_nil)
    have hsome : (charClass? c).isSome := by
      rw [Option.isSome_iff_ne_none]
      intro hnone
      exact hpart (hbody ▸ partLength_eq_zero hnone rest)
    have hlength : partLength body = pieceLength body := by rw [hbody, partLength_eq hsome]
    have hstuck : Stuck (body.drop (pieceLength body)) ↔ Stuck s := by
      have hcons : body ≠ [] := hbody ▸ List.cons_ne_nil c rest
      have hbare : Stuck body ↔ Stuck s := stuck_dropWhile hcons
      rw [← hbare, hbody]
      exact stuck_drop hsome rest
    have hpieces : pieces s =
        body.take (pieceLength body) :: pieces (body.drop (pieceLength body)) := by
      have hbare : pieces body = pieces s := pieces_dropWhile s
      rw [← hbare, hbody]
      exact pieces_cons (ne_underscore_of_dropWhile hbody) rest
    rw [ih, hlength, hpieces]
    simp only [hstuck]
    split <;> rfl

theorem exists_of_isUpper {c : Char} (hc : c.isUpper) : ∃ n < 26, c = Char.ofNat (65 + n) := by
  obtain ⟨hlow, hhigh⟩ := isUpper_iff.mp hc
  have hlow' : 65 ≤ c.toNat := hlow
  have hhigh' : c.toNat ≤ 90 := hhigh
  refine ⟨c.toNat - 65, by omega, ?_⟩
  rw [Nat.add_sub_cancel' hlow', Char.ofNat_toNat]

theorem toLower_of_not_isUpper {c : Char} (hc : c.isUpper = false) : c.toLower = c := by
  refine (Text.toLower_cases c).resolve_right ?_
  rintro ⟨n, hn, rfl⟩
  have hcapital : ∀ n < 26, (Char.ofNat (65 + n)).isUpper = true := by decide
  rw [hcapital n hn] at hc
  cases hc

theorem toLower_of_isLower {c : Char} (hc : c.isLower) : c.toLower = c :=
  toLower_of_not_isUpper (not_isUpper_of_isLower hc)

theorem take_length_takeWhile (p : Char → Bool) (t : Text) :
    t.take (t.takeWhile p).length = t.takeWhile p :=
  (List.prefix_iff_eq_take.mp (List.takeWhile_prefix p)).symm

theorem drop_length_takeWhile (p : Char → Bool) (t : Text) :
    t.drop (t.takeWhile p).length = t.dropWhile p := by
  have happend : t.take (t.takeWhile p).length ++ t.drop (t.takeWhile p).length =
      t.takeWhile p ++ t.dropWhile p := by
    rw [List.take_append_drop, List.takeWhile_append_dropWhile]
  rw [take_length_takeWhile] at happend
  exact List.append_cancel_left happend

/-- Lowercase letters at the front are the first part, whether or not they are taken beforehand. -/
theorem parts?_lower {c : Char} (hc : c.isLower) (rest : Text) :
    parts? (c :: rest) = (parts? ((c :: rest).dropWhile Char.isLower)).map
      ((c :: rest).takeWhile Char.isLower :: ·) := by
  have hbare : (c :: rest).dropWhile (· = '_') = c :: rest := by
    refine List.dropWhile_cons_of_neg ?_
    rw [decide_eq_true_eq]
    rintro rfl
    cases hc
  have hlength : partLength (c :: rest) = ((c :: rest).takeWhile Char.isLower).length := by
    rw [partLength_lower hc, List.takeWhile_cons_of_pos hc, List.length_cons]
  have hlower : ((c :: rest).takeWhile Char.isLower).map Char.toLower =
      (c :: rest).takeWhile Char.isLower :=
    (List.map_congr_left fun d hd => toLower_of_isLower (List.mem_takeWhile_imp hd)).trans
      (List.map_id _)
  rw [parts?, dif_neg (List.cons_ne_nil c rest)]
  simp only [hbare, hlength, take_length_takeWhile, drop_length_takeWhile, hlower]
  rw [dif_neg (by simp [hc])]

end Subtoken

open Subtoken

/-- The token holds a character that no piece may hold, or underscores come last and something else
before them. -/
def LeftWhole (token : Text) : Prop :=
  (∃ c ∈ token, ¬ Cuttable c) ∨ (token.getLast? = some '_' ∧ ∃ c ∈ token, c ≠ '_')

instance : DecidablePred LeftWhole := fun token =>
  inferInstanceAs (Decidable ((∃ c ∈ token, ¬ Cuttable c) ∨
    (token.getLast? = some '_' ∧ ∃ c ∈ token, c ≠ '_')))

/-- The row of underscores at the front, if there is one. -/
def leadingUnderscores (token : Text) : List Text :=
  if token.head? = some '_' then [token.takeWhile (· = '_')] else []

theorem leftWhole_iff (token : Text) : LeftWhole token ↔ Stuck (token.dropWhile (· = '_')) := by
  by_cases hbare : token.dropWhile (· = '_') = []
  · have hall : ∀ c ∈ token, c = '_' := by simpa using List.dropWhile_eq_nil_iff.mp hbare
    rw [hbare, iff_false_right not_stuck_nil]
    rintro (⟨c, hc, hnot⟩ | ⟨-, c, hc, hnot⟩)
    · exact hnot (Or.inl (hall c hc))
    · exact hnot (hall c hc)
  · have hother : ∃ c ∈ token, c ≠ '_' := by
      obtain ⟨c, rest, hcons⟩ := List.exists_cons_of_ne_nil hbare
      refine ⟨c, (List.dropWhile_suffix _).mem (hcons ▸ List.mem_cons_self), ?_⟩
      exact ne_underscore_of_dropWhile hcons
    rw [stuck_dropWhile hbare, LeftWhole, and_iff_left hother, Stuck]

theorem subtokens_of_not_underscore {c : Char} (hc : c ≠ '_') (rest : Text) :
    subtokens (c :: rest) = (parts? (c :: rest)).getD [c :: rest] := by
  rw [subtokens, leading, if_neg hc]
  by_cases hlower : c.isLower
  · rw [parts?_lower hlower]
    simp only
    cases parts? ((c :: rest).dropWhile Char.isLower) with
    | none => rfl
    | some parts => simp [hlower]
  · rw [List.takeWhile_cons_of_neg hlower, List.dropWhile_cons_of_neg hlower]
    simp only
    cases parts? (c :: rest) with
    | none => rfl
    | some parts => rfl

/-- A token is cut wherever there is a cut between neighbours, unless it is left whole. -/
theorem subtokens_eq (token : Text) :
    subtokens token =
      if token = [] then []
      else if LeftWhole token then [token]
      else leadingUnderscores token ++
        (pieces (token.dropWhile (· = '_'))).map (·.map Char.toLower) := by
  cases token with
  | nil => simp [subtokens, leading, parts?]
  | cons c rest =>
    rw [if_neg (List.cons_ne_nil c rest)]
    have hwhole := leftWhole_iff (c :: rest)
    by_cases hc : c = '_'
    · subst hc
      rw [subtokens, leading, if_pos rfl]
      simp only
      by_cases hstuck : Stuck (('_' :: rest).dropWhile (· = '_'))
      · rw [if_pos (hwhole.mpr hstuck), parts?_eq, if_pos hstuck]
      · rw [if_neg (mt hwhole.mp hstuck), parts?_eq, if_neg hstuck]
        simp [leadingUnderscores]
    · have hbare : (c :: rest).dropWhile (· = '_') = c :: rest :=
        List.dropWhile_cons_of_neg (by simpa using hc)
      have hleading : leadingUnderscores (c :: rest) = [] := by simp [leadingUnderscores, hc]
      rw [hbare] at hwhole ⊢
      rw [subtokens_of_not_underscore hc, parts?_eq, hleading]
      by_cases hstuck : Stuck (c :: rest)
      · rw [if_pos (hwhole.mpr hstuck), if_pos hstuck]
        rfl
      · rw [if_neg (mt hwhole.mp hstuck), if_neg hstuck]
        rfl

example : pieces "getHTTPResponse__v2<[]".toList =
    ["get", "HTTP", "Response", "v", "2", "<", "[]"].map String.toList := by
  decide

end TokenCorpus
