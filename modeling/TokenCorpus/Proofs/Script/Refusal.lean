import TokenCorpus.Proofs.Script.Furthest

/-!
Where the error of a refused script points.

The text before the place of the error can be completed to a script, and no script has the word at
that place there. Both follow from how an expression gets stuck: what was read before stays read
when the text after it is exchanged, so the stuck text can be exchanged for one that completes the
expression, and it cannot be helped by what comes after its first word.
-/

namespace TokenCorpus.Script

/-! ## What is read stays read -/

theorem endsWord_congr {s t : Text} (h : s.head? = t.head?) : endsWord s = endsWord t := by
  rw [endsWord, endsWord, h]

theorem head?_append_congr {p s t : Text} (h : s.head? = t.head?) :
    (p ++ s).head? = (p ++ t).head? := by
  rw [List.head?_append, List.head?_append, h]

theorem skipTrivia_cons {s r : Text} {c : Char} (h : skipTrivia s = c :: r) :
    isSeparator c = false ∧ c ≠ ';' := by
  fun_induction skipTrivia s with
  | case1 => cases h
  | case2 _ _ _ ih => exact ih h
  | case3 _ _ ih => exact ih h
  | case4 d t hseparator hcomment =>
    obtain ⟨rfl, rfl⟩ := List.cons.inj h
    exact ⟨by simpa using hseparator, hcomment⟩

/-- The text after the trivia has no trivia at its front, whatever is put behind its first
character. -/
theorem skipTrivia_of_head? {s t : Text} (h : (skipTrivia s).head? = t.head?) :
    skipTrivia t = t := by
  cases t with
  | nil => exact skipTrivia_nil
  | cons c r =>
    obtain ⟨r', hskip⟩ := List.head?_eq_some_iff.mp h
    obtain ⟨hseparator, hcomment⟩ := skipTrivia_cons hskip
    exact skipTrivia_of_not hseparator hcomment

theorem exists_trivia {s : Text} (h : skipTrivia s ≠ []) :
    ∃ gap, Trivia gap ∧ s = gap ++ skipTrivia s := by
  rcases skipTrivia_split s with hgap | ⟨hnil, _⟩
  · exact hgap
  · exact absurd hnil h

/-- The text `w` before `rest` is read as the nodes, and it still is before any other rest that no
word at its end runs on into. -/
def ReadBefore (read : Text → Text → Prop) (w rest : Text) : Prop :=
  ∀ rest', (endsWord rest → endsWord rest') → read (w ++ rest') rest'

theorem reads_before {s rest : Text} {nodes : List Node} (h : Reads s nodes rest)
    (hone : ∀ s' node rest, s'.length ≤ s.length → readOne s' = some (node, rest) →
      ∃ w, w ≠ [] ∧ s' = w ++ rest ∧
        ReadBefore (fun t r => readOne t = some (node, r)) w rest) :
    ∃ q, s = q ++ rest ∧ ReadBefore (fun t r => Reads t nodes r) q rest := by
  induction h with
  | nil => exact ⟨[], rfl, fun _ _ => .nil⟩
  | @cons s t rest node nodes hread _ ih =>
    have hlength := length_lt_of_readOne hread
    have hskip := length_skipTrivia_le s
    obtain ⟨w, hw, hsplit, hbefore⟩ := hone _ _ _ hskip hread
    obtain ⟨q, rfl, hnodes⟩ := ih fun s' node rest hle => hone s' node rest (by omega)
    obtain ⟨c, w, rfl⟩ := List.exists_cons_of_ne_nil hw
    obtain ⟨gap, hgap, hs⟩ := exists_trivia (s := s) (by rw [hsplit]; simp)
    refine ⟨gap ++ (c :: w ++ q), by rw [hs, hsplit]; simp, fun rest' hends => ?_⟩
    have hends' : endsWord (q ++ rest) → endsWord (q ++ rest') := by
      cases q with
      | nil => exact hends
      | cons d q => exact fun h => h
    refine .cons (t := q ++ rest') ?_ (hnodes rest' hends)
    rw [List.append_assoc, hgap.skip, List.append_assoc, skipTrivia_of_head? (s := s)]
    · exact hbefore _ hends'
    · rw [hsplit]
      rfl

/-- What is read at the front of a text does not depend on what comes after it. -/
theorem readOne_before {s rest : Text} {node : Node} (h : readOne s = some (node, rest)) :
    ∃ w, w ≠ [] ∧ s = w ++ rest ∧ ReadBefore (fun t r => readOne t = some (node, r)) w rest := by
  refine readOne_induction (P := fun s node rest => ∃ w, w ≠ [] ∧ s = w ++ rest ∧
    ReadBefore (fun t r => readOne t = some (node, r)) w rest) ?_ ?_ ?_ h
  · intro node l rest hlexeme hends
    refine ⟨l.text, ?_, rfl, fun rest' hends' => ?_⟩
    · obtain ⟨c, t, htext, _⟩ := hlexeme.head_not_mark
      rw [htext]
      exact List.cons_ne_nil c t
    · exact readOne_lexeme hlexeme fun hword => hends' (hends hword)
  · intro t rest node hreads hone
    obtain ⟨q, rfl, hbefore⟩ := reads_before hreads hone
    refine ⟨'\'' :: q, by simp, rfl, fun rest' hends => ?_⟩
    have hquoted : Reads (q ++ rest') [node] rest' := hbefore rest' hends
    dsimp only
    rw [List.cons_append, readOne_quote, hquoted.readOne]
    rfl
  · intro kind opening closing t after rest nodes hkind hreads hone hclosing
    obtain ⟨q, rfl, hbefore⟩ := reads_before hreads hone
    obtain ⟨gap, hgap, hsplit⟩ := exists_trivia (s := after) (by rw [hclosing]; simp)
    rw [hclosing] at hsplit
    refine ⟨opening :: (q ++ (gap ++ [closing])), by simp, by rw [hsplit]; simp, ?_⟩
    intro rest' _
    have hinner : Reads (q ++ (gap ++ closing :: rest')) nodes (gap ++ closing :: rest') := by
      refine hbefore _ fun hends => ?_
      rw [hsplit] at hends
      rw [← hends]
      exact endsWord_congr (head?_append_congr rfl)
    have htext : opening :: (q ++ (gap ++ [closing])) ++ rest' =
        opening :: (q ++ (gap ++ closing :: rest')) := by simp
    have hskip : skipTrivia (gap ++ closing :: rest') = closing :: rest' := by
      rw [hgap.skip, skipTrivia_of_head? (s := after)]
      rw [hclosing]
      rfl
    rw [htext]
    exact readOne_closed hkind hinner hskip

theorem Reads.append {s t rest : Text} {nodes more : List Node} (h : Reads s nodes t)
    (hmore : Reads t more rest) : Reads s (nodes ++ more) rest := by
  induction h with
  | nil => exact hmore
  | cons hone _ ih => exact .cons hone (ih hmore)

/-! ## The text before the place can be completed -/

theorem FinalTrivia.append_line {t : Text} (h : FinalTrivia t) : Trivia (t ++ ['\n']) := by
  have hline : Trivia ['\n'] := .separator (by decide) .nil
  obtain ⟨gap, last, hgap, rfl | ⟨body, hbody, rfl⟩, rfl⟩ := h
  · rw [List.append_nil]
    exact hgap.append hline
  · rw [List.append_assoc]
    exact hgap.append (.comment hbody .nil)

theorem exists_finalTrivia (t : Text) : ∃ p, FinalTrivia p ∧ t = p ++ skipTrivia t := by
  rcases skipTrivia_split t with ⟨gap, hgap, ht⟩ | ⟨hnil, hfinal⟩
  · exact ⟨gap, ⟨gap, [], hgap, Or.inl rfl, by simp⟩, ht⟩
  · exact ⟨t, hfinal, by rw [hnil, List.append_nil]⟩

theorem readOne_skip_lexeme {node : Node} {l : Lexeme} {rest : Text} (h : OneLexeme node l)
    (hends : l.isWord → endsWord rest) :
    readOne (skipTrivia (l.text ++ rest)) = some (node, rest) := by
  rw [h.proper.skip]
  exact readOne_lexeme h hends

theorem Brackets.endsWord_closing {kind : Kind} {opening closing : Char}
    (h : Brackets kind opening closing) (t : Text) : endsWord (closing :: t) := by
  cases h with
  | list => rw [endsWord_cons]; decide
  | block => rw [endsWord_cons]; decide

/-- Where `t` gets stuck before `u`, the text before `u` goes on to an expression. What comes before
`t` does not run on into it if it did not run on into `t`. -/
def Completes (t u : Text) : Prop :=
  ∃ p more, t = p ++ u ∧ ∀ rest, endsWord rest →
    (endsWord t → endsWord (p ++ (more ++ rest))) ∧
      ∃ node, readOne (skipTrivia (p ++ (more ++ rest))) = some (node, rest)

theorem Stuck.completes {s u : Text} (h : Stuck s u) : ∀ t, skipTrivia t = s → Completes t u := by
  induction h with
  | leaf =>
    rintro t rfl
    obtain ⟨p, hp, ht⟩ := exists_finalTrivia t
    -- The end of line keeps the string out of a comment that is open before it.
    refine ⟨p, '\n' :: quoted [], ht, fun rest hends => ?_⟩
    have htext : p ++ ('\n' :: quoted [] ++ rest) = p ++ ['\n'] ++ (quoted [] ++ rest) := by simp
    rw [htext]
    refine ⟨fun _ => hp.append_line.endsWord (by simp) _, .literal (quoted []), ?_⟩
    rw [hp.append_line.skip]
    exact readOne_skip_lexeme (.string .nil) nofun
  | @spread u _ =>
    intro t ht
    obtain ⟨gap, hgap, hsplit⟩ := exists_trivia (s := t) (by rw [ht]; simp)
    rw [ht] at hsplit
    refine ⟨gap ++ ['.', '.', '.'], ['x'], by rw [hsplit]; simp, fun rest hends => ?_⟩
    have hx : IsSymbol ['x'] := ⟨'x', [], by decide, by simp, rfl⟩
    have hspread := OneLexeme.spread hx
    have htext : gap ++ ['.', '.', '.'] ++ (['x'] ++ rest) =
        gap ++ ((Lexeme.word '.' ['.', '.', 'x']).text ++ rest) := by simp [Lexeme.text]
    rw [htext]
    refine ⟨fun hends' => ?_, .composite .spread [.identifier ['x']], ?_⟩
    · rw [← hends', hsplit]
      exact endsWord_congr (head?_append_congr rfl)
    · rw [hgap.skip]
      exact readOne_skip_lexeme hspread fun _ => hends
  | @quote t' u _ ih =>
    intro t ht
    obtain ⟨gap, hgap, hsplit⟩ := exists_trivia (s := t) (by rw [ht]; simp)
    rw [ht] at hsplit
    obtain ⟨p, more, rfl, hmore⟩ := ih t' rfl
    refine ⟨gap ++ '\'' :: p, more, by rw [hsplit]; simp, fun rest hends => ?_⟩
    have htext :
        gap ++ '\'' :: p ++ (more ++ rest) = gap ++ '\'' :: (p ++ (more ++ rest)) := by simp
    obtain ⟨_, node, hread⟩ := hmore rest hends
    rw [htext]
    refine ⟨fun hends' => ?_, .composite .quote [node], ?_⟩
    · rw [← hends', hsplit]
      exact endsWord_congr (head?_append_congr rfl)
    · rw [hgap.skip, skipTrivia_of_not (by decide) (by decide), readOne_quote, hread]
      rfl
  | @group kind opening closing t' after u nodes hkind hreads _ _ ih =>
    intro t ht
    obtain ⟨gap, hgap, hsplit⟩ := exists_trivia (s := t) (by rw [ht]; simp)
    rw [ht] at hsplit
    obtain ⟨q, rfl, hbefore⟩ := reads_before hreads fun _ _ _ _ => readOne_before
    obtain ⟨p, more, rfl, hmore⟩ := ih after rfl
    refine ⟨gap ++ opening :: (q ++ p), more ++ [closing], by rw [hsplit]; simp, fun rest _ => ?_⟩
    have htext : gap ++ opening :: (q ++ p) ++ (more ++ [closing] ++ rest) =
        gap ++ opening :: (q ++ (p ++ (more ++ closing :: rest))) := by simp
    obtain ⟨hends, node, hread⟩ := hmore (closing :: rest) (hkind.endsWord_closing rest)
    have hclosing : skipTrivia (closing :: rest) = closing :: rest := hkind.proper.2.skip rest
    have hinner : Reads (q ++ (p ++ (more ++ closing :: rest))) (nodes ++ [node])
        (closing :: rest) := (hbefore _ hends).append (.cons hread .nil)
    rw [htext]
    refine ⟨fun hends' => ?_, .composite kind (nodes ++ [node]), ?_⟩
    · rw [← hends', hsplit]
      exact endsWord_congr (head?_append_congr rfl)
    · have hopening : skipTrivia (opening :: (q ++ (p ++ (more ++ closing :: rest)))) =
          opening :: (q ++ (p ++ (more ++ closing :: rest))) := hkind.proper.1.skip _
      rw [hgap.skip, hopening]
      exact readOne_closed hkind hinner hclosing

/-! ## The word at the place cannot stand there -/

/-- The word at the front of a text that cannot go on: a run of symbol characters, or else the first
character alone. -/
def offending : Text → Text
  | [] => []
  | c :: r => if isSymbolChar c then (c :: r).takeWhile isSymbolChar else [c]

/-- A string begins here, and the text ends before it does. -/
def OpensString (s : Text) : Prop :=
  s.head? = some '"' ∧ ¬ ∃ body rest, IsStringBody body ∧ s = quoted body ++ rest

theorem exists_offending (s : Text) : ∃ behind, s = offending s ++ behind := by
  unfold offending
  split
  · exact ⟨[], rfl⟩
  · split
    · exact ⟨_, List.takeWhile_append_dropWhile.symm⟩
    · exact ⟨_, rfl⟩

theorem head?_offending {s : Text} (hne : s ≠ []) (more : Text) :
    (offending s ++ more).head? = s.head? := by
  obtain ⟨c, r, rfl⟩ := List.exists_cons_of_ne_nil hne
  rw [offending]
  split
  · next hc =>
    rw [List.takeWhile_cons_of_pos hc]
    rfl
  · rfl

section Offending

variable {s more : Text}

/-- A lone word at the front of the exchanged text was at the front before. -/
theorem word_of_offending {w rest : Text} (hne : s ≠ []) (hmore : endsWord s ∨ endsWord more)
    (hw : w ≠ []) (hsymbolic : ∀ c ∈ w, isSymbolChar c) (hends : endsWord rest)
    (heq : offending s ++ more = w ++ rest) : ∃ rest', s = w ++ rest' ∧ endsWord rest' := by
  obtain ⟨c, r, rfl⟩ := List.exists_cons_of_ne_nil hne
  obtain ⟨d, t, rfl⟩ := List.exists_cons_of_ne_nil hw
  have hhead := head?_offending hne more
  rw [heq] at hhead
  obtain rfl : d = c := Option.some.inj hhead
  have hd : isSymbolChar d := hsymbolic d (by simp)
  rw [offending, if_pos hd] at heq
  have hends' : endsWord more := by
    rw [endsWord_cons, hd] at hmore
    exact hmore.resolve_left Bool.false_ne_true
  have hrun : ∀ e ∈ (d :: r).takeWhile isSymbolChar, isSymbolChar e :=
    fun e he => List.mem_takeWhile_imp he
  obtain ⟨hword, _⟩ := word_unique hrun hsymbolic hends' hends heq
  refine ⟨(d :: r).dropWhile isSymbolChar, ?_, endsWord_dropWhile _⟩
  rw [← hword, List.takeWhile_append_dropWhile]

theorem not_opensFurther_offending (hne : s ≠ []) (hmore : endsWord s ∨ endsWord more)
    (h : ¬ OpensFurther s) : ¬ OpensFurther (offending s ++ more) := by
  have hhead := head?_offending hne more
  rintro ⟨t, heq | heq | heq | heq⟩
  · rw [heq] at hhead
    obtain ⟨r, hr⟩ := List.head?_eq_some_iff.mp hhead.symm
    exact h ⟨r, Or.inl hr⟩
  · rw [heq] at hhead
    obtain ⟨r, hr⟩ := List.head?_eq_some_iff.mp hhead.symm
    exact h ⟨r, Or.inr (Or.inl hr)⟩
  · rw [heq] at hhead
    obtain ⟨r, hr⟩ := List.head?_eq_some_iff.mp hhead.symm
    exact h ⟨r, Or.inr (Or.inr (Or.inl hr))⟩
  · have hsplit : '.' :: '.' :: '.' :: t =
        '.' :: '.' :: '.' :: t.takeWhile isSymbolChar ++ t.dropWhile isSymbolChar := by
      simp [List.takeWhile_append_dropWhile]
    have hsymbolic : ∀ c ∈ '.' :: '.' :: '.' :: t.takeWhile isSymbolChar, isSymbolChar c := by
      intro c hc
      simp only [List.mem_cons] at hc
      rcases hc with rfl | rfl | rfl | hc
      · decide
      · decide
      · decide
      · exact List.mem_takeWhile_imp hc
    obtain ⟨rest', hs, _⟩ := word_of_offending hne hmore (List.cons_ne_nil _ _) hsymbolic
      (endsWord_dropWhile t) (heq.trans hsplit)
    exact h ⟨_, Or.inr (Or.inr (Or.inr hs))⟩

/-- No leaf begins with what no leaf began with. -/
theorem leafAt_offending (hne : s ≠ []) (hstring : ¬ OpensString s)
    (hmore : endsWord s ∨ endsWord more) (h : leafAt s = none) :
    leafAt (offending s ++ more) = none := by
  rw [Option.eq_none_iff_forall_ne_some]
  rintro ⟨node, rest⟩ hleaf
  obtain ⟨l, hone, heq, hends⟩ := leafAt_eq_some_iff.mp hleaf
  cases l with
  | mark c => cases hone
  | string body =>
    have hhead := head?_offending hne more
    rw [heq] at hhead
    have hclosed : ∃ body rest, IsStringBody body ∧ s = quoted body ++ rest := by
      by_contra hopen
      exact hstring ⟨hhead.symm, hopen⟩
    obtain ⟨body', rest', hbody, hs⟩ := hclosed
    rw [leafAt_eq_some_iff.mpr ⟨.string body', .string hbody, hs, nofun⟩] at h
    cases h
  | word c r =>
    obtain ⟨rest', hs, hends'⟩ := word_of_offending hne hmore (List.cons_ne_nil _ _)
      (hone.all_isSymbolChar rfl) (hends rfl) heq
    rw [leafAt_eq_some_iff.mpr ⟨.word c r, hone, hs, fun _ => hends'⟩] at h
    cases h

theorem symbol?_offending (hne : s ≠ []) (more : Text) (h : symbol? s = none) :
    symbol? (offending s ++ more) = none := by
  obtain ⟨c, r, rfl⟩ := List.exists_cons_of_ne_nil hne
  obtain ⟨r', hr'⟩ := List.head?_eq_some_iff.mp (head?_offending hne more)
  rw [hr']
  unfold symbol? at h ⊢
  dsimp only at h ⊢
  by_cases hc : isSymbolStart c
  · rw [if_pos hc] at h
    cases h
  · rw [if_neg hc]

end Offending

theorem leaf_of_scan {k : Scanner} {leaf : Text → Node} {s : Text} (h : k.scan s = none) :
    k.leaf leaf s = none := by
  rw [Scanner.leaf, h]
  rfl

/-- Three points begin nothing but a spread symbol. -/
theorem readOne_dots {t : Text} (h : symbol? t = none) :
    readOne ('.' :: '.' :: '.' :: t) = none := by
  obtain ⟨hnumber, hstring, hboolean, hsymbol⟩ :=
    scan_eq_none (c := '.') (t := '.' :: '.' :: t) (by decide) (by decide) (by decide)
  rw [readOne_of_ne (by simp) (by simp) (by simp), leafAt, spreadAt]
  have hspread : symbolWord.scan t = none := h
  rw [leaf_of_scan hspread, leaf_of_scan hnumber, leaf_of_scan hstring, leaf_of_scan hboolean,
    leaf_of_scan hsymbol]
  rfl

/-- A row that is followed by neither an expression nor the closing bracket is no group. -/
theorem readOne_unclosed {kind : Kind} {opening closing : Char} {t rest : Text} {nodes : List Node}
    (hkind : Brackets kind opening closing) (hreads : Reads t nodes rest)
    (hnone : readOne (skipTrivia rest) = none) (hopen : ∀ r, skipTrivia rest ≠ closing :: r) :
    readOne (opening :: t) = none := by
  rw [readOne_group hkind, hreads.readRow, readRow_of_none hnone]
  cases hrest : skipTrivia rest with
  | nil => rfl
  | cons d r =>
    rw [closeRow, if_neg]
    rintro rfl
    exact hopen r hrest

/-- Where `t` gets stuck before `u`, it still does when `u` is exchanged for another text that begins
with the same word. What is put in place of `t` begins like it. -/
def Refuses (t u : Text) : Prop :=
  ∃ p, t = p ++ u ∧ ∀ more, endsWord u ∨ endsWord more →
    (p ++ (offending u ++ more)).head? = t.head? ∧
      (skipTrivia (p ++ (offending u ++ more))).head? = (skipTrivia t).head? ∧
        readOne (skipTrivia (p ++ (offending u ++ more))) = none

theorem Stuck.refuses {s u : Text} (h : Stuck s u) (hne : u ≠ []) (hstring : ¬ OpensString u) :
    ∀ t, skipTrivia t = s → Refuses t u := by
  induction h with
  | leaf hopens hleaf =>
    rintro t rfl
    obtain ⟨gap, hgap, ht⟩ := exists_trivia hne
    refine ⟨gap, ht, fun more hmore => ?_⟩
    have hhead := head?_offending hne more
    have hskip : skipTrivia (gap ++ (offending (skipTrivia t) ++ more)) =
        offending (skipTrivia t) ++ more := by
      rw [hgap.skip]
      exact skipTrivia_of_head? hhead.symm
    rw [hskip]
    refine ⟨?_, hhead, ?_⟩
    · exact (head?_append_congr hhead).trans (congrArg List.head? ht.symm)
    · have hopens' := not_opensFurther_offending hne hmore hopens
      rw [readOne_of_ne (fun v hv => hopens' ⟨v, Or.inl hv⟩)
        (fun v hv => hopens' ⟨v, Or.inr (Or.inl hv)⟩)
        (fun v hv => hopens' ⟨v, Or.inr (Or.inr (Or.inl hv))⟩)]
      exact leafAt_offending hne hstring hmore hleaf
  | @spread u hsymbol =>
    intro t ht
    obtain ⟨gap, hgap, hsplit⟩ := exists_trivia (s := t) (by rw [ht]; simp)
    rw [ht] at hsplit
    refine ⟨gap ++ ['.', '.', '.'], by rw [hsplit]; simp, fun more _ => ?_⟩
    have htext : gap ++ ['.', '.', '.'] ++ (offending u ++ more) =
        gap ++ '.' :: '.' :: '.' :: (offending u ++ more) := by simp
    rw [htext, hgap.skip, skipTrivia_of_not (by decide) (by decide), hsplit, hgap.skip,
      skipTrivia_of_not (by decide) (by decide)]
    exact ⟨head?_append_congr rfl, rfl, readOne_dots (symbol?_offending hne more hsymbol)⟩
  | @quote t' u _ ih =>
    intro t ht
    obtain ⟨gap, hgap, hsplit⟩ := exists_trivia (s := t) (by rw [ht]; simp)
    rw [ht] at hsplit
    obtain ⟨p, rfl, hrefused⟩ := ih hne hstring t' rfl
    refine ⟨gap ++ '\'' :: p, by rw [hsplit]; simp, fun more hmore => ?_⟩
    have htext : gap ++ '\'' :: p ++ (offending u ++ more) =
        gap ++ '\'' :: (p ++ (offending u ++ more)) := by simp
    rw [htext, hgap.skip, skipTrivia_of_not (by decide) (by decide), hsplit, hgap.skip,
      skipTrivia_of_not (by decide) (by decide), readOne_quote, (hrefused more hmore).2.2]
    exact ⟨head?_append_congr rfl, rfl, rfl⟩
  | @group kind opening closing t' after u nodes hkind hreads hopen _ ih =>
    intro t ht
    obtain ⟨gap, hgap, hsplit⟩ := exists_trivia (s := t) (by rw [ht]; simp)
    rw [ht] at hsplit
    obtain ⟨q, rfl, hbefore⟩ := reads_before hreads fun _ _ _ _ => readOne_before
    obtain ⟨p, rfl, hrefused⟩ := ih hne hstring after rfl
    refine ⟨gap ++ opening :: (q ++ p), by rw [hsplit]; simp, fun more hmore => ?_⟩
    have htext : gap ++ opening :: (q ++ p) ++ (offending u ++ more) =
        gap ++ opening :: (q ++ (p ++ (offending u ++ more))) := by simp
    obtain ⟨hhead, hhead', hnone⟩ := hrefused more hmore
    have hinner := hbefore (p ++ (offending u ++ more)) fun hends => by
      rw [endsWord_congr hhead]
      exact hends
    have hskip : ∀ v, skipTrivia (opening :: v) = opening :: v := hkind.proper.1.skip
    rw [htext, hgap.skip, hskip, hsplit, hgap.skip, hskip]
    refine ⟨head?_append_congr rfl, rfl, readOne_unclosed hkind hinner hnone fun v hv => ?_⟩
    rw [hv] at hhead'
    obtain ⟨r, hr⟩ := List.head?_eq_some_iff.mp hhead'.symm
    exact hopen r hr

/-! ## Whole scripts -/

theorem program_ne_ok {source rest : Text} {nodes : List Node} (h : Reads source nodes rest)
    (hnone : readOne (skipTrivia rest) = none) (hrest : skipTrivia rest ≠ []) (tree : Node) :
    program source ≠ .ok tree := by
  intro hok
  have hread := (program_eq_ok_iff.mp hok).1
  rw [h.readRow, readRow_of_none hnone] at hread
  exact hrest hread

/-- Where an expression gets stuck, no script has the word that stands there in its place. -/
theorem Stuck.program_ne_ok {source rest u : Text} {nodes : List Node}
    (hreads : Reads source nodes rest) (hrest : skipTrivia rest ≠ [])
    (h : Stuck (skipTrivia rest) u) (hne : u ≠ []) (hstring : ¬ OpensString u) :
    ∃ before, source = before ++ u ∧ ∀ more, endsWord u ∨ endsWord more →
      ∀ tree, program (before ++ (offending u ++ more)) ≠ .ok tree := by
  obtain ⟨q, rfl, hbefore⟩ := reads_before hreads fun _ _ _ _ => readOne_before
  obtain ⟨p, rfl, hrefuses⟩ := h.refuses hne hstring rest rfl
  refine ⟨q ++ p, by rw [List.append_assoc], fun more hmore => ?_⟩
  obtain ⟨hhead, hhead', hnone⟩ := hrefuses more hmore
  have hwhole := hbefore (p ++ (offending u ++ more)) fun hends => by
    rw [endsWord_congr hhead]
    exact hends
  have hne' : skipTrivia (p ++ (offending u ++ more)) ≠ [] := by
    intro hnil
    rw [hnil] at hhead'
    exact hrest (List.head?_eq_none_iff.mp hhead'.symm)
  rw [List.append_assoc]
  exact Script.program_ne_ok hwhole hnone hne'

theorem take_append_length (p u : Text) : (p ++ u).take ((p ++ u).length - u.length) = p := by
  rw [List.length_append, Nat.add_sub_cancel, List.take_left]

theorem byteLength_append (s t : Text) :
    Text.byteLength (s ++ t) = Text.byteLength s + Text.byteLength t := by
  induction s with
  | nil => simp [Text.byteLength]
  | cons c s ih => rw [List.cons_append, Text.byteLength, Text.byteLength, ih, Nat.add_assoc]

theorem offset_of_refusal {path source : Text} {a : Attempts} {e : ParseError}
    (h : refusal path source a = e) : e.offset = offsetOf source a.left := by
  rw [← h, refusal]
  split
  · rfl
  · rfl

/-- The byte `offset` is where the text cannot go on: what comes before it goes on to a script, and no
script has the word that stands there in its place. If a string begins there and does not end,
nothing is said of the word. -/
def OffendsAt (source : Text) (offset : Nat) : Prop :=
  ∃ before after, source = before ++ after ∧ offset = Text.byteLength before ∧
    (∃ more tree, ∀ path, parse path (before ++ more) = .ok tree) ∧
    (after ≠ [] → ¬ OpensString after → ∀ more, endsWord after ∨ endsWord more →
      ∀ path tree, parse path (before ++ (offending after ++ more)) ≠ .ok tree)

/-- The error of a refused script points at the word that cannot stand there. -/
theorem parse_eq_error_place {path source : Text} {e : ParseError}
    (h : parse path source = .error e) :
    e.offset ≤ Text.byteLength source ∧ OffendsAt source e.offset := by
  unfold parse at h
  cases hprogram : program source with
  | ok tree =>
    rw [hprogram] at h
    cases h
  | error a =>
    rw [hprogram] at h
    obtain ⟨nodes, rest, u, hreads, hrest, hstuck, hleft⟩ := program_eq_error hprogram
    obtain ⟨q, hsource, hbefore⟩ := reads_before hreads fun _ _ _ _ => readOne_before
    obtain ⟨p, more, hp, hcompletes⟩ := hstuck.completes rest rfl
    have hsplit : source = q ++ p ++ u := by rw [hsource, hp, List.append_assoc]
    have hoffset : e.offset = Text.byteLength (q ++ p) := by
      rw [offset_of_refusal (Except.error.inj h), offsetOf, hleft, hsplit, take_append_length]
    have hle : e.offset ≤ Text.byteLength source := by
      rw [hoffset, hsplit, byteLength_append (q ++ p) u]
      exact Nat.le_add_right _ _
    refine ⟨hle, q ++ p, u, hsplit, hoffset, ?_, ?_⟩
    · obtain ⟨hends, node, hread⟩ := hcompletes [] rfl
      rw [List.append_nil] at hends hread
      have hwhole : Reads (q ++ (p ++ more)) (nodes ++ [node]) [] :=
        (hbefore _ hends).append (.cons hread .nil)
      refine ⟨more, .composite .program (nodes ++ [node]), fun path' => ?_⟩
      rw [List.append_assoc]
      exact parse_eq_ok_iff_program.mpr (program_of_reads hwhole skipTrivia_nil)
    · intro hne hstring more' hmore path' tree hok
      obtain ⟨before, hbefore', hrefused⟩ := hstuck.program_ne_ok hreads hrest hne hstring
      obtain rfl : before = q ++ p := List.append_cancel_right (hbefore'.symm.trans hsplit)
      exact hrefused more' hmore tree (parse_eq_ok_iff_program.mp hok)

/-- In a list, a symbol that would begin with a digit. -/
theorem parse_eq_error_place_digit :
    ∃ e, parse [] "(a 1x)".toList = .error e ∧ e.offset = 3 ∧
      e.offset ≤ Text.byteLength "(a 1x)".toList ∧ OffendsAt "(a 1x)".toList e.offset := by
  have hprogram : program "(a 1x)".toList =
      .error ⟨3, [.quote, .spread, .list, .block, .number, .string, .boolean, .symbol]⟩ := by
    decide +kernel
  have hparse : parse [] "(a 1x)".toList = .error (refusal [] "(a 1x)".toList
      ⟨3, [.quote, .spread, .list, .block, .number, .string, .boolean, .symbol]⟩) := by
    rw [parse, hprogram]
    rfl
  refine ⟨_, hparse, ?_, parse_eq_error_place hparse⟩
  rw [offset_of_refusal rfl]
  decide +kernel

end TokenCorpus.Script
