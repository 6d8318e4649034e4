import Mathlib.Data.List.TakeWhile
import TokenCorpus.Proofs.Script.Language

/-!
The scanners split off exactly the words of the language.

Where a word ends is decided by what follows it. A number, a boolean and a symbol end where no symbol
character follows, so each of them is found whole or not at all. A string ends at its own quote.
-/

namespace TokenCorpus.Script

theorem isSymbolChar_of_isDigit {c : Char} (h : c.isDigit) : isSymbolChar c := by
  simp [isSymbolChar, h]

theorem isSymbolChar_of_isSymbolStart {c : Char} (h : isSymbolStart c) : isSymbolChar c := by
  simp [isSymbolChar, h]

theorem endsWord_cons {c : Char} {r : Text} : endsWord (c :: r) = !isSymbolChar c := by
  simp [endsWord]

@[simp] theorem endsWord_nil : endsWord [] = true := rfl

/-- A run of characters with a property ends where a text without them begins. -/
theorem run_append {p : Char → Bool} {a b : Text} (ha : ∀ c ∈ a, p c) (hb : b.head?.all (!p ·)) :
    run p (a ++ b) = (a, b) := by
  have htake : b.takeWhile p = [] ∧ b.dropWhile p = b := by
    cases b with
    | nil => exact ⟨rfl, rfl⟩
    | cons c r =>
      have hc : p c = false := by simpa using hb
      exact ⟨by simp [hc], by simp [hc]⟩
  rw [run, List.takeWhile_append_of_pos ha, List.dropWhile_append_of_pos ha, htake.1, htake.2,
    List.append_nil]

theorem head?_all_of_endsWord {p : Char → Bool} {rest : Text} (hp : ∀ c, p c → isSymbolChar c)
    (h : endsWord rest) : rest.head?.all (!p ·) := by
  cases rest with
  | nil => rfl
  | cons c r =>
    rw [endsWord_cons] at h
    cases hpc : p c with
    | false => simp [hpc]
    | true => simp [hp c hpc] at h

theorem endsWord_dropWhile (s : Text) : endsWord (s.dropWhile isSymbolChar) := by
  cases hdrop : s.dropWhile isSymbolChar with
  | nil => rfl
  | cons c r =>
    have hc := List.head?_dropWhile_not isSymbolChar s
    rw [hdrop] at hc
    rw [endsWord_cons]
    simpa using hc

/-! ## Numbers -/

theorem isFraction_fraction (s : Text) : IsFraction (fraction s).1 := by
  unfold fraction
  split
  · next r =>
    split
    · exact Or.inl rfl
    · next hne =>
      refine Or.inr ⟨_, ⟨by simpa using hne, ?_⟩, rfl⟩
      intro c hc
      exact List.mem_takeWhile_imp hc
  · exact Or.inl rfl

theorem fraction_append {part rest : Text} (hpart : IsFraction part) (hrest : endsWord rest) :
    fraction (part ++ rest) = (part, rest) := by
  have hdigit := head?_all_of_endsWord (fun _ => isSymbolChar_of_isDigit) hrest
  rcases hpart with rfl | ⟨digits, ⟨hne, hdigits⟩, rfl⟩
  · rw [List.nil_append]
    unfold fraction
    split
    · next r =>
      rw [endsWord_cons] at hrest
      exact absurd hrest (by decide)
    · rfl
  · have hrun := run_append hdigits hdigit
    simp only [run, Prod.mk.injEq] at hrun
    simp only [fraction, List.cons_append, hrun.1, hrun.2]
    rw [if_neg (by simpa using hne)]

theorem unsigned?_eq_some_iff {s word rest : Text} :
    unsigned? s = some (word, rest) ↔ IsUnsigned word ∧ s = word ++ rest ∧ endsWord rest := by
  constructor
  · intro h
    have hsplit := (unsigned?_split h).2
    simp only [unsigned?, run, Option.ite_none_left_eq_some, Option.some.injEq, Prod.mk.injEq,
      Bool.or_eq_true, not_or, List.isEmpty_iff, Bool.not_eq_true', Bool.not_eq_false] at h
    obtain ⟨⟨hwhole, hends⟩, hword, hrest⟩ := h
    refine ⟨⟨_, _, ⟨hwhole, fun c hc => List.mem_takeWhile_imp hc⟩, isFraction_fraction _, hword.symm⟩,
      hsplit, ?_⟩
    rw [← hrest]
    exact hends
  · rintro ⟨⟨whole, part, ⟨hne, hwhole⟩, hpart, rfl⟩, rfl, hends⟩
    have hstop : (part ++ rest).head?.all (!Char.isDigit ·) := by
      rcases hpart with rfl | ⟨digits, _, rfl⟩
      · exact head?_all_of_endsWord (fun _ => isSymbolChar_of_isDigit) hends
      · rfl
    have hrun := run_append hwhole hstop
    rw [← List.append_assoc] at hrun
    simp only [unsigned?, hrun, fraction_append hpart hends, hends]
    simp [hne]

theorem IsUnsigned.exists_digit {t : Text} (h : IsUnsigned t) : ∃ c r, c.isDigit ∧ t = c :: r := by
  obtain ⟨whole, part, ⟨hne, hdigits⟩, _, rfl⟩ := h
  obtain ⟨c, r, rfl⟩ := List.exists_cons_of_ne_nil hne
  exact ⟨c, r ++ part, hdigits c (by simp), rfl⟩

theorem number?_eq_some_iff {s word rest : Text} :
    number? s = some (word, rest) ↔ IsNumber word ∧ s = word ++ rest ∧ endsWord rest := by
  unfold number?
  split
  · next r =>
    constructor
    · intro h
      obtain ⟨⟨w, t⟩, hw, heq⟩ := Option.map_eq_some_iff.mp h
      obtain ⟨rfl, rfl⟩ := Prod.mk.inj heq
      obtain ⟨hnumber, rfl, hends⟩ := unsigned?_eq_some_iff.mp hw
      exact ⟨Or.inr ⟨w, hnumber, rfl⟩, rfl, hends⟩
    · rintro ⟨hnumber | ⟨w, hw, rfl⟩, heq, hends⟩
      · obtain ⟨c, t, hc, rfl⟩ := hnumber.exists_digit
        obtain ⟨rfl, _⟩ := List.cons.inj heq
        exact absurd hc (by decide)
      · have hr : r = w ++ rest := (List.cons.inj heq).2
        rw [unsigned?_eq_some_iff.mpr ⟨hw, hr, hends⟩]
        rfl
  · next hminus =>
    rw [unsigned?_eq_some_iff]
    constructor
    · rintro ⟨hword, heq, hends⟩
      exact ⟨Or.inl hword, heq, hends⟩
    · rintro ⟨hword | ⟨w, hw, rfl⟩, heq, hends⟩
      · exact ⟨hword, heq, hends⟩
      · exact absurd heq (hminus (w ++ rest))

theorem IsUnsigned.all_isSymbolChar {t : Text} (h : IsUnsigned t) : ∀ c ∈ t, isSymbolChar c := by
  obtain ⟨whole, part, ⟨_, hwhole⟩, hpart, rfl⟩ := h
  intro c hc
  rcases List.mem_append.mp hc with hc | hc
  · exact isSymbolChar_of_isDigit (hwhole c hc)
  · rcases hpart with rfl | ⟨digits, ⟨_, hdigits⟩, rfl⟩
    · simp at hc
    · rcases List.mem_cons.mp hc with rfl | hc
      · decide
      · exact isSymbolChar_of_isDigit (hdigits c hc)

theorem IsNumber.all_isSymbolChar {t : Text} (h : IsNumber t) : ∀ c ∈ t, isSymbolChar c := by
  rcases h with h | ⟨r, hr, rfl⟩
  · exact h.all_isSymbolChar
  · intro c hc
    rcases List.mem_cons.mp hc with rfl | hc
    · decide
    · exact hr.all_isSymbolChar c hc

/-! ## Booleans -/

theorem keyword?_eq_some_iff {name s word rest : Text} :
    keyword? name s = some (word, rest) ↔ word = name ∧ s = word ++ rest ∧ endsWord rest := by
  constructor
  · intro h
    obtain ⟨hname, hsplit⟩ := keyword?_split h
    simp only [keyword?, Option.bind_eq_some_iff, Option.ite_none_right_eq_some, Option.some.injEq,
      Prod.mk.injEq] at h
    obtain ⟨t, _, hends, _, rfl⟩ := h
    exact ⟨hname, hsplit, hends⟩
  · rintro ⟨rfl, rfl, hends⟩
    simp [keyword?, after?, List.isPrefixOf_iff_prefix, hends]

theorem boolean?_eq_some_iff {s word rest : Text} :
    boolean? s = some (word, rest) ↔ IsBoolean word ∧ s = word ++ rest ∧ endsWord rest := by
  simp only [boolean?, Option.or_eq_some_iff, keyword?_eq_some_iff, IsBoolean]
  constructor
  · rintro (⟨hword, h⟩ | ⟨_, hword, h⟩)
    · exact ⟨Or.inl hword, h⟩
    · exact ⟨Or.inr hword, h⟩
  · rintro ⟨hword | hword, hsplit, hends⟩
    · exact Or.inl ⟨hword, hsplit, hends⟩
    · refine Or.inr ⟨?_, hword, hsplit, hends⟩
      rw [Option.eq_none_iff_forall_ne_some]
      rintro ⟨w, t⟩ h
      obtain ⟨rfl, hsplit', _⟩ := keyword?_eq_some_iff.mp h
      have hheads := congrArg List.head? (hsplit.symm.trans hsplit')
      rw [hword] at hheads
      change some 'f' = some 't' at hheads
      exact absurd hheads (by decide)

theorem IsBoolean.all_isSymbolChar {t : Text} (h : IsBoolean t) : ∀ c ∈ t, isSymbolChar c := by
  cases h with
  | inl h => rw [h]; exact List.all_eq_true.mp (by decide)
  | inr h => rw [h]; exact List.all_eq_true.mp (by decide)

/-! ## Symbols -/

theorem IsSymbol.all_isSymbolChar {t : Text} (h : IsSymbol t) : ∀ c ∈ t, isSymbolChar c := by
  obtain ⟨c, r, hc, hr, rfl⟩ := h
  intro d hd
  rcases List.mem_cons.mp hd with rfl | hd
  · exact isSymbolChar_of_isSymbolStart hc
  · exact hr d hd

theorem symbol?_eq_some_iff {s word rest : Text} :
    symbol? s = some (word, rest) ↔ IsSymbol word ∧ s = word ++ rest ∧ endsWord rest := by
  constructor
  · intro h
    have hsplit := symbolWord.split h
    unfold symbol? at h
    split at h
    · next c r =>
      rw [Option.ite_none_right_eq_some, Option.some.injEq, Prod.mk.injEq] at h
      obtain ⟨hc, rfl, rfl⟩ := h
      exact ⟨⟨c, _, hc, fun d hd => List.mem_takeWhile_imp hd, rfl⟩, hsplit, endsWord_dropWhile r⟩
    · simp at h
  · rintro ⟨⟨c, r, hc, hr, rfl⟩, rfl, hends⟩
    have hrun := run_append hr (head?_all_of_endsWord (fun _ h => h) hends)
    simp only [run, Prod.mk.injEq] at hrun
    simp only [symbol?, List.cons_append, hrun.1, hrun.2, if_pos hc]

/-! ## Strings -/

theorem stringTail?_eq_some_iff {s word rest : Text} :
    stringTail? s = some (word, rest) ↔
      ∃ body, IsStringBody body ∧ word = body ++ ['"'] ∧ s = word ++ rest := by
  constructor
  · intro h
    have hsplit := stringTail?_split h
    suffices hbody : ∃ body, IsStringBody body ∧ word = body ++ ['"'] by
      obtain ⟨body, hbody, hword⟩ := hbody
      exact ⟨body, hbody, hword, hsplit⟩
    clear hsplit
    fun_induction stringTail? s generalizing word rest with
    | case1 => simp at h
    | case2 r =>
      obtain ⟨rfl, rfl⟩ := Prod.mk.inj (Option.some.inj h)
      exact ⟨[], .nil, rfl⟩
    | case3 => simp at h
    | case4 c r ih =>
      obtain ⟨⟨w, t⟩, hw, heq⟩ := Option.map_eq_some_iff.mp h
      obtain ⟨rfl, rfl⟩ := Prod.mk.inj heq
      obtain ⟨body, hbody, rfl⟩ := ih hw
      exact ⟨_, .escape hbody, rfl⟩
    | case5 c r hquote hescape hlast ih =>
      obtain ⟨⟨w, t⟩, hw, heq⟩ := Option.map_eq_some_iff.mp h
      obtain ⟨rfl, rfl⟩ := Prod.mk.inj heq
      obtain ⟨body, hbody, rfl⟩ := ih hw
      refine ⟨_, .plain hquote ?_ hbody, rfl⟩
      intro hc
      cases r with
      | nil => exact hescape hc rfl
      | cons d r => exact hlast d r hc rfl
  · rintro ⟨body, hbody, rfl, rfl⟩
    induction hbody with
    | nil => rfl
    | plain hquote hescape _ ih =>
      rw [List.cons_append, List.cons_append, stringTail?.eq_5, ih]
      · rfl
      · exact hquote
      · exact fun h => absurd h hescape
      · exact fun _ _ h => absurd h hescape
    | escape _ ih => simp only [List.cons_append, stringTail?, ih, Option.map_some]

theorem string?_eq_some_iff {s word rest : Text} :
    string? s = some (word, rest) ↔
      ∃ body, IsStringBody body ∧ word = quoted body ∧ s = word ++ rest := by
  constructor
  · intro h
    have hsplit := stringWord.split h
    unfold string? at h
    split at h
    · next r =>
      obtain ⟨⟨w, t⟩, hw, heq⟩ := Option.map_eq_some_iff.mp h
      obtain ⟨rfl, rfl⟩ := Prod.mk.inj heq
      obtain ⟨body, hbody, rfl, _⟩ := stringTail?_eq_some_iff.mp hw
      exact ⟨body, hbody, rfl, hsplit⟩
    · simp at h
  · rintro ⟨body, hbody, rfl, rfl⟩
    have htail : stringTail? (body ++ ['"'] ++ rest) = some (body ++ ['"'], rest) :=
      stringTail?_eq_some_iff.mpr ⟨body, hbody, rfl, rfl⟩
    simp only [quoted, List.cons_append, string?, htail, Option.map_some]

end TokenCorpus.Script
