import TokenCorpus.Proofs.Script.Concatenation
import TokenCorpus.Proofs.Script.Expectation

/-!
Scripts that are not finished.

A text that is no script may still be the beginning of one. Where it breaks off between lexemes or
in a comment, the parser comes to its end, and the error comes with advice. Where it breaks off in a
string, the parser comes to the quote that opens the string and no further, so there is no advice.
-/

namespace TokenCorpus.Script

/-- A lexeme of some script, or three points that no symbol is glued to. -/
inductive IsLexeme : Lexeme → Prop
  | leaf {node : Node} {l : Lexeme} (h : OneLexeme node l) : IsLexeme l
  | quote : IsLexeme (.mark '\'')
  | opening {kind : Kind} {opening closing : Char} (hkind : Brackets kind opening closing) :
      IsLexeme (.mark opening)
  | closing {kind : Kind} {opening closing : Char} (hkind : Brackets kind opening closing) :
      IsLexeme (.mark closing)
  | points : IsLexeme (.word '.' ['.', '.'])

/-- The first text consists of whole lexemes, with separators and comments around them, up to the
second one. -/
inductive LexedTo : Text → Text → Prop
  | trivia {gap u : Text} (hgap : Trivia gap) : LexedTo (gap ++ u) u
  | next {gap t u : Text} {l : Lexeme} (hgap : Trivia gap) (hl : IsLexeme l)
      (hends : l.isWord → endsWord t) (h : LexedTo t u) : LexedTo (gap ++ (l.text ++ t)) u

/-- The text consists of whole lexemes, with separators and comments around them. The last comment
may lack the end of its line. -/
def OfWholeLexemes (s : Text) : Prop := ∃ last, LexedTo s last ∧ FinalTrivia last

variable {s t u v rest source : Text} {node : Node} {nodes : List Node} {l : Lexeme}

/-! ## Lexemes at the front -/

theorem IsLexeme.proper (h : IsLexeme l) : l.Proper := by
  cases h with
  | leaf h => exact h.proper
  | quote => exact ⟨_, _, rfl, by decide, by decide⟩
  | opening hkind => exact hkind.proper.1
  | closing hkind => exact hkind.proper.2
  | points => exact ⟨_, _, rfl, by decide, by decide⟩

/-- A lexeme that begins with a bracket or a quotation mark is no more than that. -/
theorem IsLexeme.eq_mark {c : Char} {r : Text} (h : IsLexeme l) (hmark : isMark c)
    (heq : c :: r = l.text ++ t) : r = t := by
  cases h with
  | leaf h =>
    obtain ⟨d, more, htext, hd, -⟩ := h.head_not_mark
    rw [htext] at heq
    rw [(List.cons.inj heq).1, hd] at hmark
    cases hmark
  | quote | opening | closing => exact (List.cons.inj heq).2
  | points =>
    rw [(List.cons.inj heq).1] at hmark
    cases hmark

theorem symbol?_of_endsWord (h : endsWord t) : symbol? t = none := by
  rw [Option.eq_none_iff_forall_ne_some]
  rintro ⟨word, rest⟩ hsymbol
  obtain ⟨⟨c, r, hc, -, rfl⟩, rfl, -⟩ := symbol?_eq_some_iff.mp hsymbol
  rw [List.cons_append, endsWord_cons, isSymbolChar_of_isSymbolStart hc] at h
  cases h

/-- Where a lexeme stands at the front and a leaf is read, the leaf is that lexeme. -/
theorem IsLexeme.readOne_leaf {l' : Lexeme} (h : IsLexeme l) (hends : l.isWord → endsWord t)
    (hone : OneLexeme node l') (hends' : l'.isWord → endsWord rest)
    (heq : l'.text ++ rest = l.text ++ t) : rest = t := by
  have hread : readOne (l.text ++ t) = some (node, rest) := heq ▸ readOne_lexeme hone hends'
  obtain ⟨c, r, htext, hmark, -⟩ := hone.head_not_mark
  have hhead : ∀ d, l.text ++ t = d :: t → isMark d = false := by
    rintro d hd
    rw [htext, hd] at heq
    rw [← (List.cons.inj heq).1, hmark]
  cases h with
  | leaf h =>
    rw [readOne_lexeme h hends, Option.some.injEq] at hread
    exact (Prod.mk.inj hread).2.symm
  | quote => exact absurd (hhead _ rfl) (by decide)
  | opening hkind => cases hkind <;> exact absurd (hhead _ rfl) (by decide)
  | closing hkind => cases hkind <;> exact absurd (hhead _ rfl) (by decide)
  | points =>
    rw [Lexeme.text, List.cons_append, List.cons_append, List.cons_append, List.nil_append,
      readOne_dots (symbol?_of_endsWord (hends rfl))] at hread
    cases hread

theorem LexedTo.suffix (h : LexedTo s u) : ∃ before, s = before ++ u := by
  induction h with
  | trivia => exact ⟨_, rfl⟩
  | @next gap t u l _ _ _ _ ih =>
    obtain ⟨before, rfl⟩ := ih
    exact ⟨gap ++ (l.text ++ before), by simp⟩

/-- What stands at the front is where the lexemes end, or else a lexeme. -/
theorem LexedTo.skip (h : LexedTo s u) :
    skipTrivia s = skipTrivia u ∨
      ∃ l t, IsLexeme l ∧ (l.isWord → endsWord t) ∧ LexedTo t u ∧ skipTrivia s = l.text ++ t := by
  cases h with
  | trivia hgap => exact Or.inl (hgap.skip u)
  | @next gap t u l hgap hl hends h =>
    exact Or.inr ⟨l, t, hl, hends, h, by rw [hgap.skip, hl.proper.skip]⟩

theorem LexedTo.skip_of_nil (h : LexedTo [] u) : skipTrivia u = [] := by
  obtain heq | ⟨l, t, hl, -, -, heq⟩ := h.skip
  · exact heq.symm.trans skipTrivia_nil
  · obtain ⟨c, r, htext, -⟩ := hl.proper
    rw [skipTrivia_nil, htext] at heq
    cases heq

/-! ## Where a text breaks off -/

/-- Nothing but trivia comes up to the end of the text, or a string that does not end. -/
def AtBreak (u : Text) : Prop := FinalTrivia u ∨ OpensString u

theorem OpensString.skip (h : OpensString u) : skipTrivia u = u := by
  obtain ⟨r, rfl⟩ := List.head?_eq_some_iff.mp h.1
  exact skipTrivia_of_not (by decide) (by decide)

/-- No expression goes on where a text breaks off. -/
theorem AtBreak.head_eq {c : Char} {r : Text} (h : AtBreak u) (hskip : skipTrivia u = c :: r) :
    c = '"' := by
  cases h with
  | inl hfinal =>
    rw [finalTrivia_iff.mp hfinal] at hskip
    cases hskip
  | inr hstring =>
    have hhead := hstring.1
    rw [← hstring.skip, hskip] at hhead
    exact Option.some.inj hhead

theorem AtBreak.ne_lexeme (h : AtBreak u) (hone : OneLexeme node l) :
    skipTrivia u ≠ l.text ++ rest := by
  intro heq
  cases l with
  | mark c => cases hone
  | string body =>
    cases hone with
    | string hbody =>
      cases h with
      | inl hfinal =>
        rw [finalTrivia_iff.mp hfinal] at heq
        cases heq
      | inr hstring => exact hstring.2 ⟨body, rest, hbody, hstring.skip.symm.trans heq⟩
  | word c r =>
    have hsymbolic := hone.all_isSymbolChar rfl c List.mem_cons_self
    rw [h.head_eq heq] at hsymbolic
    exact absurd hsymbolic (by decide)

/-- A string that does not end is no lexeme, so the lexemes end before it. -/
theorem LexedTo.skip_of_opensString (h : LexedTo v u) (hstring : OpensString v) :
    v = skipTrivia u := by
  obtain ⟨r, rfl⟩ := List.head?_eq_some_iff.mp hstring.1
  rw [← hstring.skip]
  obtain heq | ⟨l, t, hl, hends, -, heq⟩ := h.skip
  · exact heq
  · rw [hstring.skip] at heq
    cases hl with
    | leaf hone =>
      have hbreak : AtBreak ('"' :: r) := Or.inr hstring
      exact absurd (hstring.skip.trans heq) (hbreak.ne_lexeme hone)
    | quote => exact absurd (List.cons.inj heq).1 (by decide)
    | opening hkind => cases hkind <;> exact absurd (List.cons.inj heq).1 (by decide)
    | closing hkind => cases hkind <;> exact absurd (List.cons.inj heq).1 (by decide)
    | points => exact absurd (List.cons.inj heq).1 (by decide)

/-! ## What is read consists of whole lexemes -/

theorem LexedTo.of_reads (h : LexedTo s u) (hreads : Reads s nodes rest)
    (hone : ∀ s' node rest, s'.length ≤ s.length → readOne s' = some (node, rest) →
      ∀ t, skipTrivia t = s' → LexedTo t u → LexedTo rest u) : LexedTo rest u := by
  induction hreads with
  | nil => exact h
  | @cons s t rest node nodes hread _ ih =>
    have hlength := length_lt_of_readOne hread
    have hskip := length_skipTrivia_le s
    exact ih (hone _ _ _ hskip hread s rfl h) fun s' node rest hle => hone s' node rest (by omega)

section

variable (hbreak : AtBreak u)
include hbreak

theorem LexedTo.of_mark {c : Char} {r : Text} (h : LexedTo s u) (hmark : isMark c)
    (hs : skipTrivia s = c :: r) : LexedTo r u := by
  obtain heq | ⟨l, t, hl, -, ht, heq⟩ := h.skip
  · rw [hbreak.head_eq (heq.symm.trans hs)] at hmark
    cases hmark
  · rw [hl.eq_mark hmark (hs.symm.trans heq)]
    exact ht

theorem LexedTo.of_leaf (h : LexedTo s u) (hone : OneLexeme node l)
    (hends : l.isWord → endsWord rest) (hs : skipTrivia s = l.text ++ rest) : LexedTo rest u := by
  obtain heq | ⟨l', t, hl, hends', ht, heq⟩ := h.skip
  · exact absurd (heq.symm.trans hs) (hbreak.ne_lexeme hone)
  · rw [hl.readOne_leaf hends' hone hends (hs.symm.trans heq)]
    exact ht

/-- The expressions at the front of a text of whole lexemes consist of whole lexemes. -/
theorem LexedTo.of_readOne (h : readOne s = some (node, rest)) :
    ∀ t, skipTrivia t = s → LexedTo t u → LexedTo rest u := by
  refine readOne_induction
    (P := fun s _ rest => ∀ t, skipTrivia t = s → LexedTo t u → LexedTo rest u) ?_ ?_ ?_ h
  · intro node l rest hlexeme hends t ht hlexed
    exact hlexed.of_leaf hbreak hlexeme hends ht
  · intro r rest node hreads hone t ht hlexed
    exact (hlexed.of_mark hbreak (by decide) ht).of_reads hreads hone
  · intro kind opening closing r after rest nodes hkind hreads hone hclosing t ht hlexed
    have hopen : isMark opening := by cases hkind <;> rfl
    have hclose : isMark closing := by cases hkind <;> rfl
    have hafter := (hlexed.of_mark hbreak hopen ht).of_reads hreads hone
    exact hafter.of_mark hbreak hclose hclosing

/-- In a text of whole lexemes the parser gets stuck where the lexemes end, unless it is at a
closing bracket or behind three points. -/
theorem Stuck.of_lexedTo (h : Stuck s v) :
    ∀ t, skipTrivia t = s → LexedTo t u →
      v = skipTrivia u ∨ v ≠ [] ∧ endsWord v ∧ ¬ OpensString v := by
  induction h with
  | @leaf s hopens hleaf =>
    rintro t rfl hlexed
    obtain heq | ⟨l, r, hl, hends, -, heq⟩ := hlexed.skip
    · exact Or.inl heq
    · rw [heq] at hopens hleaf ⊢
      cases hl with
      | leaf hone =>
        rw [leafAt_eq_some_iff.mpr ⟨l, hone, rfl, hends⟩] at hleaf
        cases hleaf
      | quote => exact absurd ⟨r, Or.inl rfl⟩ hopens
      | opening hkind =>
        cases hkind with
        | list => exact absurd ⟨r, Or.inr (Or.inl rfl)⟩ hopens
        | block => exact absurd ⟨r, Or.inr (Or.inr (Or.inl rfl))⟩ hopens
      | closing hkind =>
        refine Or.inr ⟨List.cons_ne_nil _ _, hkind.endsWord_closing r, fun hstring => ?_⟩
        cases hkind <;> exact absurd (Option.some.inj hstring.1) (by decide)
      | points => exact absurd ⟨r, Or.inr (Or.inr (Or.inr rfl))⟩ hopens
  | @spread v hsymbol =>
    intro t ht hlexed
    obtain heq | ⟨l, r, hl, hends, hrest, heq⟩ := hlexed.skip
    · exact absurd (hbreak.head_eq (heq.symm.trans ht)) (by decide)
    · rw [ht] at heq
      cases hl with
      | leaf hone =>
        have hread := readOne_lexeme hone hends
        rw [← heq, readOne_dots hsymbol] at hread
        cases hread
      | quote => exact absurd (List.cons.inj heq).1 (by decide)
      | opening hkind => cases hkind <;> exact absurd (List.cons.inj heq).1 (by decide)
      | closing hkind => cases hkind <;> exact absurd (List.cons.inj heq).1 (by decide)
      | points =>
        obtain rfl : v = r := by simpa [Lexeme.text] using heq
        by_cases hstring : OpensString v
        · exact Or.inl (hrest.skip_of_opensString hstring)
        by_cases hnil : v = []
        · subst hnil
          exact Or.inl hrest.skip_of_nil.symm
        · exact Or.inr ⟨hnil, hends rfl, hstring⟩
  | @quote r v _ ih =>
    intro t ht hlexed
    exact ih r rfl (hlexed.of_mark hbreak (by decide) ht)
  | @group kind opening closing r after v nodes hkind hreads _ _ ih =>
    intro t ht hlexed
    have hopen : isMark opening := by cases hkind <;> rfl
    exact ih after rfl ((hlexed.of_mark hbreak hopen ht).of_reads hreads
      fun _ _ _ _ => LexedTo.of_readOne hbreak)

end

/-! ## What consists of whole lexemes is read -/

theorem LexedTo.before_reads (h : LexedTo rest u) (hreads : Reads s nodes rest)
    (hone : ∀ s' node rest, s'.length ≤ s.length → readOne s' = some (node, rest) →
      ∀ t, skipTrivia t = s' → LexedTo rest u → LexedTo t u) : LexedTo s u := by
  induction hreads with
  | nil => exact h
  | @cons s t rest node nodes hread _ ih =>
    have hlength := length_lt_of_readOne hread
    have hskip := length_skipTrivia_le s
    exact hone _ _ _ hskip hread s rfl (ih h fun s' node rest hle => hone s' node rest (by omega))

theorem LexedTo.next_of_skip (h : LexedTo t u) (hl : IsLexeme l) (hends : l.isWord → endsWord t)
    (hs : skipTrivia s = l.text ++ t) : LexedTo s u := by
  have hne : skipTrivia s ≠ [] := by
    obtain ⟨c, r, htext, -⟩ := hl.proper
    rw [hs, htext]
    exact List.cons_ne_nil _ _
  obtain ⟨gap, hgap, hsplit⟩ := exists_trivia hne
  rw [hsplit, hs]
  exact .next hgap hl hends h

/-- Before a text of whole lexemes, an expression that is read makes one too. -/
theorem LexedTo.before_readOne (h : readOne s = some (node, rest)) :
    ∀ t, skipTrivia t = s → LexedTo rest u → LexedTo t u := by
  refine readOne_induction
    (P := fun s _ rest => ∀ t, skipTrivia t = s → LexedTo rest u → LexedTo t u) ?_ ?_ ?_ h
  · intro node l rest hlexeme hends t ht hlexed
    exact hlexed.next_of_skip (.leaf hlexeme) hends ht
  · intro r rest node hreads hone t ht hlexed
    exact (hlexed.before_reads hreads hone).next_of_skip .quote nofun ht
  · intro kind opening closing r after rest nodes hkind hreads hone hclosing t ht hlexed
    have hafter := hlexed.next_of_skip (.closing hkind) nofun hclosing
    exact (hafter.before_reads hreads hone).next_of_skip (.opening hkind) nofun ht

/-- A text whose last expression gets stuck at the end of the text consists of whole lexemes. -/
theorem Stuck.ofWholeLexemes (h : Stuck s v) (hv : v = []) :
    ∀ t, skipTrivia t = s → OfWholeLexemes t := by
  induction h with
  | leaf =>
    rintro t rfl
    exact ⟨t, .trivia .nil, finalTrivia_iff.mpr hv⟩
  | spread =>
    intro t ht
    subst hv
    have hend : LexedTo [] [] := .trivia .nil
    have hlexed := hend.next_of_skip .points (fun _ => endsWord_nil) ht
    exact ⟨[], hlexed, finalTrivia_iff.mpr skipTrivia_nil⟩
  | @quote r v _ ih =>
    intro t ht
    obtain ⟨last, hlexed, hfinal⟩ := ih hv r rfl
    exact ⟨last, hlexed.next_of_skip .quote nofun ht, hfinal⟩
  | @group kind opening closing r after v nodes hkind hreads _ _ ih =>
    intro t ht
    obtain ⟨last, hlexed, hfinal⟩ := ih hv after rfl
    have hinner := hlexed.before_reads hreads fun _ _ _ _ => LexedTo.before_readOne
    exact ⟨last, hinner.next_of_skip (.opening hkind) nofun ht, hfinal⟩

/-! ## Whole scripts -/

/-- The parser comes no further than the text is long. -/
theorem left_le_of_program_eq_error {a : Attempts} (h : program source = .error a) :
    a.left ≤ source.length := by
  obtain ⟨nodes, rest, u, hreads, -, hstuck, hleft⟩ := program_eq_error h
  rw [hleft]
  exact Nat.le_trans hstuck.length_le
    (Nat.le_trans (length_skipTrivia_le rest) (length_le_of_reads hreads))

theorem ofWholeLexemes_of_program_eq_error {a : Attempts} (h : program source = .error a)
    (hleft : a.left = 0) : OfWholeLexemes source := by
  obtain ⟨nodes, rest, u, hreads, -, hstuck, hu⟩ := program_eq_error h
  obtain ⟨last, hlexed, hfinal⟩ :=
    hstuck.ofWholeLexemes (List.length_eq_zero_iff.mp (hu.symm.trans hleft)) rest rfl
  exact ⟨last, hlexed.before_reads hreads fun _ _ _ _ => LexedTo.before_readOne, hfinal⟩

/-- In a text that goes on to a script, the parser comes to where the whole lexemes end. -/
theorem left_of_lexedTo {a : Attempts} {more : Text} {tree : Node} (hlexed : LexedTo source u)
    (hbreak : AtBreak u) (herror : program source = .error a)
    (hmore : program (source ++ more) = .ok tree) : a.left = (skipTrivia u).length := by
  obtain ⟨nodes, rest, v, hreads, hrest, hstuck, hleft⟩ := program_eq_error herror
  have hlexed' := hlexed.of_reads hreads fun _ _ _ _ => LexedTo.of_readOne hbreak
  obtain heq | ⟨hne, hends, hstring⟩ := hstuck.of_lexedTo hbreak rest rfl hlexed'
  · rw [hleft, heq]
  · obtain ⟨before, hsplit, hrefused⟩ := hstuck.program_ne_ok hreads hrest hne hstring
    obtain ⟨behind, hv⟩ := exists_offending v
    have htext : source ++ more = before ++ (offending v ++ (behind ++ more)) := by
      rw [hsplit, List.append_assoc, ← List.append_assoc (offending v), ← hv]
    rw [htext] at hmore
    exact absurd hmore (hrefused (behind ++ more) (Or.inl hends) tree)

/-- An error comes with advice exactly if the parser came to the end of the text. -/
theorem help_eq_some_iff {path : Text} {a : Attempts} (h : a.left ≤ source.length) :
    (refusal path source a).help = some endedEarly.toList ↔ a.left = 0 := by
  obtain ⟨before, after, rfl, hafter⟩ :
      ∃ before after, source = before ++ after ∧ after.length = a.left := by
    refine ⟨_, _, (List.take_append_drop (source.length - a.left) source).symm, ?_⟩
    rw [List.length_drop]
    omega
  rw [help_of_refusal, offsetOf, ← hafter, take_append_length, byteLength_append]
  simp only [ite_eq_left_iff, reduceCtorEq, imp_false, not_not]
  rw [List.length_eq_zero_iff, ← byteLength_eq_zero]
  omega

/-- A refused text that goes on to a script is refused with advice exactly if it consists of whole
lexemes, whatever is open behind them. If it breaks off in a string, it is refused where the string
begins, without advice. -/
theorem parse_eq_error_help {path source : Text} {e : ParseError} (h : parse path source = .error e)
    (hmore : ∃ more tree, parse path (source ++ more) = .ok tree) :
    (e.help = some endedEarly.toList ↔ OfWholeLexemes source) ∧
      (e.help = none ↔ ¬ OfWholeLexemes source) ∧
      ∀ body, LexedTo source ('"' :: body) → OpensString ('"' :: body) →
        e.help = none ∧
          ∃ before, source = before ++ '"' :: body ∧ e.offset = Text.byteLength before := by
  obtain ⟨a, herror, rfl⟩ := parse_eq_error_iff.mp h
  obtain ⟨more, tree, hok⟩ := hmore
  have hprogram := parse_eq_ok_iff_program.mp hok
  have hadvice : (refusal path source a).help = some endedEarly.toList ↔ a.left = 0 :=
    help_eq_some_iff (left_le_of_program_eq_error herror)
  have hwhole : (refusal path source a).help = some endedEarly.toList ↔ OfWholeLexemes source := by
    rw [hadvice]
    refine ⟨ofWholeLexemes_of_program_eq_error herror, fun ⟨last, hlexed, hfinal⟩ => ?_⟩
    rw [left_of_lexedTo hlexed (Or.inl hfinal) herror hprogram, finalTrivia_iff.mp hfinal]
    rfl
  have hnone : (refusal path source a).help = none ↔
      ¬ (refusal path source a).help = some endedEarly.toList := by
    rw [help_of_refusal]
    split
    · simp
    · simp
  refine ⟨hwhole, hnone.trans (not_congr hwhole), fun body hlexed hstring => ?_⟩
  have hleft := left_of_lexedTo hlexed (Or.inr hstring) herror hprogram
  rw [hstring.skip] at hleft
  obtain ⟨before, rfl⟩ := hlexed.suffix
  refine ⟨hnone.mpr fun hhelp => ?_, before, rfl, ?_⟩
  · rw [hadvice, hleft] at hhelp
    cases hhelp
  · rw [offset_of_refusal rfl, offsetOf, hleft, take_append_length]

/-- In a quoted list, within a comment. -/
theorem parse_eq_error_help_comment :
    ∃ e, parse [] "'(a ; b".toList = .error e ∧ e.help = some endedEarly.toList ∧
      OfWholeLexemes "'(a ; b".toList := by
  have hprogram : program "'(a ; b".toList =
      .error ⟨0, [.quote, .spread, .list, .block, .number, .string, .boolean, .symbol]⟩ := by
    decide +kernel
  have hparse : parse [] "'(a ; b".toList = .error (refusal [] _ _) :=
    parse_eq_error_iff.mpr ⟨_, hprogram, rfl⟩
  have hmore : ∃ more tree, parse [] ("'(a ; b".toList ++ more) = .ok tree :=
    ⟨"\n)".toList,
      .composite .program [.composite .quote [.composite .list [.identifier "a".toList]]],
      by decide +kernel⟩
  refine ⟨_, hparse, ?_, (parse_eq_error_help hparse hmore).1.mp ?_⟩
  all_goals exact (help_eq_some_iff (Nat.zero_le _)).mpr rfl

/-- A string that is not closed, in a list. -/
theorem not_help_unclosed_string :
    ∃ e, parse [] "(say \"abc".toList = .error e ∧ e.help ≠ some endedEarly.toList ∧ e.offset = 5 ∧
      ∃ tree, parse [] ("(say \"abc".toList ++ "\")".toList) = .ok tree := by
  have hprogram : program "(say \"abc".toList =
      .error ⟨4, [.quote, .spread, .list, .block, .number, .string, .boolean, .symbol]⟩ := by
    decide +kernel
  let say : Node := .composite .list [.identifier "say".toList, .literal "\"abc\"".toList]
  refine ⟨_, parse_eq_error_iff.mpr ⟨_, hprogram, rfl⟩, ?_, ?_, .composite .program [say], ?_⟩
  · rw [help_of_refusal, if_neg (by decide +kernel)]
    exact nofun
  · rw [offset_of_refusal rfl]
    decide +kernel
  · decide +kernel

end TokenCorpus.Script
