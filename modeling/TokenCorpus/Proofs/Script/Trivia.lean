import TokenCorpus.Proofs.Script.Words

/-!
What lies between lexemes.

Skipping trivia takes away exactly what a layout may put before its first lexeme. So a layout can be
taken apart one lexeme at a time, and put together again.
-/

namespace TokenCorpus.Script

theorem skipTrivia_separator {c : Char} {t : Text} (hc : isSeparator c) :
    skipTrivia (c :: t) = skipTrivia t := by
  rw [skipTrivia, if_pos hc]

theorem skipTrivia_comment (t : Text) :
    skipTrivia (';' :: t) = skipTrivia (t.dropWhile (· ≠ '\n')) := by
  rw [skipTrivia, if_neg (by decide), if_pos rfl]

theorem skipTrivia_of_not {c : Char} {t : Text} (hc : isSeparator c = false) (hcomment : c ≠ ';') :
    skipTrivia (c :: t) = c :: t := by
  rw [skipTrivia, if_neg (by simp [hc]), if_neg hcomment]

@[simp] theorem skipTrivia_nil : skipTrivia [] = [] := by rw [skipTrivia]

theorem dropWhile_comment {body t : Text} (hbody : '\n' ∉ body) :
    (body ++ '\n' :: t).dropWhile (· ≠ '\n') = '\n' :: t := by
  have hall : ∀ c ∈ body, (c ≠ '\n' : Bool) := by
    intro c hc
    simp only [ne_eq, decide_eq_true_eq]
    rintro rfl
    exact hbody hc
  rw [List.dropWhile_append_of_pos hall]
  rfl

theorem Trivia.skip {gap : Text} (h : Trivia gap) (t : Text) :
    skipTrivia (gap ++ t) = skipTrivia t := by
  induction h with
  | nil => rfl
  | separator hc _ ih => rw [List.cons_append, skipTrivia_separator hc, ih]
  | comment hbody _ ih =>
    rw [List.cons_append, List.append_assoc, skipTrivia_comment, List.cons_append,
      dropWhile_comment hbody, skipTrivia_separator (by decide), ih]

theorem Trivia.append {a b : Text} (ha : Trivia a) (hb : Trivia b) : Trivia (a ++ b) := by
  induction ha with
  | nil => exact hb
  | separator hc _ ih => exact .separator hc ih
  | comment hbody _ ih =>
    rw [List.cons_append, List.append_assoc]
    exact .comment hbody ih

/-- What follows a semicolon is a comment to the end of its line, or to the end of the text. -/
theorem comment_split (r : Text) :
    ∃ body, '\n' ∉ body ∧ (r = body ∧ skipTrivia (';' :: r) = [] ∨
      ∃ t, r = body ++ '\n' :: t ∧ skipTrivia (';' :: r) = skipTrivia t) := by
  refine ⟨r.takeWhile (· ≠ '\n'), ?_, ?_⟩
  · intro hmem
    have hne := List.mem_takeWhile_imp hmem
    simp at hne
  have hsplit : r = r.takeWhile (· ≠ '\n') ++ r.dropWhile (· ≠ '\n') :=
    List.takeWhile_append_dropWhile.symm
  rw [skipTrivia_comment]
  cases hdrop : r.dropWhile (· ≠ '\n') with
  | nil =>
    rw [hdrop, List.append_nil] at hsplit
    exact Or.inl ⟨hsplit, skipTrivia_nil⟩
  | cons c t =>
    have hc : c = '\n' := by
      have hhead := List.head?_dropWhile_not (· ≠ '\n') r
      rw [hdrop] at hhead
      simpa using hhead
    subst hc
    rw [hdrop] at hsplit
    exact Or.inr ⟨t, hsplit, skipTrivia_separator (by decide)⟩

/-- The text before the first lexeme is trivia, unless its last comment is cut off by the end. -/
theorem skipTrivia_split (s : Text) :
    (∃ gap, Trivia gap ∧ s = gap ++ skipTrivia s) ∨ skipTrivia s = [] ∧ FinalTrivia s := by
  induction hn : s.length using Nat.strong_induction_on generalizing s with
  | _ n ih =>
    -- What holds of the text after one separator or comment holds of the text with it.
    have hafter : ∀ front t, Trivia front → s = front ++ t → t.length < n →
        skipTrivia s = skipTrivia t →
        (∃ gap, Trivia gap ∧ s = gap ++ skipTrivia s) ∨ skipTrivia s = [] ∧ FinalTrivia s := by
      intro front t hfront hs hlt hskip
      rw [hskip]
      rcases ih _ hlt t rfl with ⟨gap, hgap, heq⟩ | ⟨hnil, gap, last, hgap, hlast, heq⟩
      · refine Or.inl ⟨front ++ gap, hfront.append hgap, ?_⟩
        rw [List.append_assoc, ← heq]
        exact hs
      · refine Or.inr ⟨hnil, front ++ gap, last, hfront.append hgap, hlast, ?_⟩
        rw [List.append_assoc, ← heq]
        exact hs
    cases s with
    | nil => exact Or.inl ⟨[], .nil, skipTrivia_nil.symm⟩
    | cons c r =>
      rw [List.length_cons] at hn
      by_cases hc : isSeparator c
      · exact hafter [c] r (.separator hc .nil) rfl (by omega) (skipTrivia_separator hc)
      by_cases hcomment : c = ';'
      · subst hcomment
        obtain ⟨body, hbody, ⟨rfl, hskip⟩ | ⟨t, rfl, hskip⟩⟩ := comment_split r
        · exact Or.inr ⟨hskip, [], _, .nil, Or.inr ⟨_, hbody, rfl⟩, rfl⟩
        · refine hafter (';' :: (body ++ ['\n'])) t (.comment hbody .nil) ?_ ?_ hskip
          · simp
          · rw [List.length_append, List.length_cons] at hn
            omega
      · rw [skipTrivia_of_not (by simpa using hc) hcomment]
        exact Or.inl ⟨[], .nil, rfl⟩

theorem finalTrivia_iff {s : Text} : FinalTrivia s ↔ skipTrivia s = [] := by
  constructor
  · rintro ⟨gap, last, hgap, hlast, rfl⟩
    rw [hgap.skip]
    rcases hlast with rfl | ⟨body, hbody, rfl⟩
    · exact skipTrivia_nil
    · obtain ⟨_, _, ⟨_, hskip⟩ | ⟨t, heq, _⟩⟩ := comment_split body
      · exact hskip
      · exact absurd (by rw [heq]; simp) hbody
  · intro h
    rcases skipTrivia_split s with ⟨gap, hgap, heq⟩ | ⟨_, hfinal⟩
    · exact ⟨gap, [], hgap, Or.inl rfl, by rw [h] at heq; exact heq⟩
    · exact hfinal

theorem not_isSymbolChar_of_isSeparator {c : Char} (h : isSeparator c) : isSymbolChar c = false := by
  simp only [isSeparator, List.mem_cons, List.not_mem_nil, or_false, decide_eq_true_eq] at h
  rcases h with rfl | rfl | rfl | rfl | rfl <;> decide

/-- No word runs on into trivia. -/
theorem Trivia.endsWord {gap : Text} (h : Trivia gap) (hne : gap ≠ []) (t : Text) :
    endsWord (gap ++ t) := by
  cases h with
  | nil => exact absurd rfl hne
  | separator hc =>
    rw [List.cons_append, endsWord_cons, not_isSymbolChar_of_isSeparator hc]
    rfl
  | comment =>
    rw [List.cons_append, endsWord_cons]
    decide

theorem FinalTrivia.endsWord {t : Text} (h : FinalTrivia t) : endsWord t := by
  obtain ⟨gap, last, hgap, hlast, rfl⟩ := h
  by_cases hne : gap = []
  · subst hne
    rcases hlast with rfl | ⟨body, _, rfl⟩
    · rfl
    · rw [List.nil_append, endsWord_cons]
      decide
  · exact hgap.endsWord hne _

/-! ## Layouts -/

/-- A lexeme that cannot be taken for trivia. -/
def Lexeme.Proper (l : Lexeme) : Prop :=
  ∃ c t, l.text = c :: t ∧ isSeparator c = false ∧ c ≠ ';'

theorem Lexeme.Proper.skip {l : Lexeme} (h : l.Proper) (rest : Text) :
    skipTrivia (l.text ++ rest) = l.text ++ rest := by
  obtain ⟨c, t, htext, hc, hcomment⟩ := h
  rw [htext, List.cons_append, skipTrivia_of_not hc hcomment]

theorem Lexeme.startsSymbolic_eq {l : Lexeme} {rest : Text} :
    endsWord (l.text ++ rest) = !l.startsSymbolic := by
  cases l <;> simp [endsWord, Lexeme.startsSymbolic, Lexeme.text, quoted]

theorem Layout.skip_nil {w : Bool} {s : Text} (h : Layout w [] s) : skipTrivia s = [] := by
  cases h with
  | last ht => exact finalTrivia_iff.mp ht

/-- The first lexeme of a layout stands where the trivia ends. -/
theorem Layout.skip_cons {w : Bool} {l : Lexeme} {ls : List Lexeme} {s : Text} (hl : l.Proper)
    (h : Layout w (l :: ls) s) :
    ∃ rest, skipTrivia s = l.text ++ rest ∧ Layout l.isWord ls rest := by
  cases h with
  | next hgap _ hrest => exact ⟨_, by rw [hgap.skip, hl.skip], hrest⟩

theorem Layout.endsWord {ls : List Lexeme} {s : Text} (h : Layout true ls s) : endsWord s := by
  cases h with
  | last ht => exact ht.endsWord
  | @next _ gap rest l _ hgap hapart _ =>
    by_cases hne : gap = []
    · rw [hne, List.nil_append, Lexeme.startsSymbolic_eq]
      cases hsymbolic : l.startsSymbolic with
      | false => rfl
      | true => exact absurd hne (hapart rfl hsymbolic)
    · exact hgap.endsWord hne _

theorem Layout.of_endsWord {w : Bool} {ls : List Lexeme} {s : Text} (h : Layout false ls s)
    (hends : w → Script.endsWord s) : Layout w ls s := by
  cases h with
  | last ht => exact .last ht
  | @next _ gap rest l _ hgap _ hrest =>
    refine .next hgap (fun hw hsymbolic hne => ?_) hrest
    have := hends hw
    rw [hne, List.nil_append, Lexeme.startsSymbolic_eq, hsymbolic] at this
    cases this

theorem Layout.after_trivia {gap s : Text} {ls : List Lexeme} (hgap : Trivia gap)
    (h : Layout false ls s) : Layout false ls (gap ++ s) := by
  cases h with
  | last ht =>
    obtain ⟨gap', last, hgap', hlast, rfl⟩ := ht
    exact .last ⟨gap ++ gap', last, hgap.append hgap', hlast, by rw [List.append_assoc]⟩
  | @next _ gap' rest l _ hgap' _ hrest =>
    rw [← List.append_assoc]
    exact .next (hgap.append hgap') nofun hrest

theorem Layout.of_skipTrivia {ls : List Lexeme} {s : Text} (h : Layout false ls (skipTrivia s)) :
    Layout false ls s := by
  rcases skipTrivia_split s with ⟨gap, hgap, heq⟩ | ⟨hnil, hfinal⟩
  · rw [heq]
    exact h.after_trivia hgap
  · cases ls with
    | nil => exact .last hfinal
    | cons l ls =>
      rw [hnil] at h
      generalize hs : ([] : Text) = t at h
      cases h with
      | next =>
        have hlength := congrArg List.length hs
        cases l <;> simp [Lexeme.text, quoted] at hlength

end TokenCorpus.Script
