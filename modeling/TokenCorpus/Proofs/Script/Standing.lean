import TokenCorpus.Proofs.Script.Refusal

/-!
What is open at the end of a text.

Word by word, a text tells which brackets and quotation marks are open behind it. Only the kind of a
word matters: an opening bracket or a quotation mark is open from then on, a closing bracket ends
what was opened last, and whatever ends also ends the quotation marks directly before it. Main
statements: an expression that is read leaves open what was open before, less the quotation marks,
and one that gets stuck leaves open what it has opened too.
-/

namespace TokenCorpus.Script

/-- How a text breaks off. -/
structure Standing where
  /-- The brackets and quotation marks open at the end, the last one first. -/
  unclosed : List Char
  /-- Whether the end is behind three points that no symbol is glued to. -/
  behindPoints : Bool
  deriving DecidableEq, Repr

/-- What is still open behind an expression: the quotation marks before it end with it. -/
def finish (marks : List Char) : List Char := marks.dropWhile (· = '\'')

/-- The text behind a string, seen from within the string. A backslash takes the next character with
it. -/
def behindString : Text → Text
  | [] => []
  | '"' :: r => r
  | '\\' :: _ :: r => behindString r
  | _ :: r => behindString r

theorem length_behindString_le (s : Text) : (behindString s).length ≤ s.length := by
  fun_induction behindString s with
  | case1 => exact Nat.le_refl _
  | case2 => simp only [List.length_cons]; omega
  | case3 _ _ ih => simp only [List.length_cons]; omega
  | case4 _ _ _ _ ih => simp only [List.length_cons]; omega

/-- How the text `s` breaks off, where the given brackets and quotation marks are open before it. -/
def standing (marks : List Char) (s : Text) : Standing :=
  match s with
  | [] => ⟨marks, false⟩
  | c :: r =>
    if isSeparator c then standing marks r
    else if c = ';' then standing marks (r.dropWhile (· ≠ '\n'))
    else if c ∈ ['\'', '(', '\x7b'] then standing (c :: marks) r
    -- In a text that the parser comes through, the last open mark is the bracket closed here.
    else if c ∈ [')', '\x7d'] then standing (finish marks.tail) r
    else if c = '"' then standing (finish marks) (behindString r)
    else if c :: r = ['.', '.', '.'] then ⟨marks, true⟩
    else standing (finish marks) (r.dropWhile isSymbolChar)
termination_by s.length
decreasing_by
  · simp
  · have := (List.dropWhile_suffix (l := r) (· ≠ '\n')).length_le
    simp only [List.length_cons]
    omega
  · simp
  · simp
  · have := length_behindString_le r
    simp only [List.length_cons]
    omega
  · have := (List.dropWhile_suffix (l := r) isSymbolChar).length_le
    simp only [List.length_cons]
    omega

variable {marks : List Char}

theorem standing_nil : standing marks [] = ⟨marks, false⟩ := by rw [standing]

theorem standing_points : standing marks ['.', '.', '.'] = ⟨marks, true⟩ := by
  rw [standing, if_neg (by decide), if_neg (by decide), if_neg (by decide), if_neg (by decide),
    if_neg (by decide), if_pos rfl]

/-- Separators and comments neither open nor end anything. -/
theorem standing_skipTrivia (s : Text) : standing marks (skipTrivia s) = standing marks s := by
  fun_induction skipTrivia s with
  | case1 => rfl
  | case2 c r hseparator ih => rw [ih, standing, if_pos hseparator]
  | case3 r hseparator ih => rw [ih, standing, if_neg hseparator, if_pos rfl]
  | case4 => rfl

theorem standing_trivia {gap : Text} (h : Trivia gap) (s : Text) :
    standing marks (gap ++ s) = standing marks s := by
  rw [← standing_skipTrivia, h.skip, standing_skipTrivia]

theorem standing_opening {c : Char} (hc : c ∈ ['\'', '(', '\x7b']) (r : Text) :
    standing marks (c :: r) = standing (c :: marks) r := by
  have hmark : isSeparator c = false ∧ c ≠ ';' := by
    simp only [List.mem_cons, List.not_mem_nil, or_false] at hc
    obtain rfl | rfl | rfl := hc <;> decide
  rw [standing, if_neg (by simp [hmark.1]), if_neg hmark.2, if_pos hc]

theorem standing_closing {kind : Kind} {opening closing : Char}
    (hkind : Brackets kind opening closing) (r : Text) :
    standing (opening :: marks) (closing :: r) = standing (finish marks) r := by
  cases hkind with
  | list =>
    rw [standing, if_neg (by decide), if_neg (by decide), if_neg (by decide),
      if_pos (by decide)]
    rfl
  | block =>
    rw [standing, if_neg (by decide), if_neg (by decide), if_neg (by decide),
      if_pos (by decide)]
    rfl

theorem behindString_append {body : Text} (h : IsStringBody body) (rest : Text) :
    behindString (body ++ '"' :: rest) = rest := by
  induction h with
  | nil => rfl
  | plain hquote hescape _ ih =>
    rw [List.cons_append, behindString, ih]
    · exact hquote
    · exact fun _ _ h => absurd h hescape
  | escape _ ih => exact ih

theorem standing_string {body : Text} (h : IsStringBody body) (rest : Text) :
    standing marks (quoted body ++ rest) = standing (finish marks) rest := by
  have htext : quoted body ++ rest = '"' :: (body ++ '"' :: rest) := by simp [quoted]
  rw [htext, standing, if_neg (by decide), if_neg (by decide), if_neg (by decide),
    if_neg (by decide), if_pos rfl, behindString_append h]

/-- Three points alone are no word. -/
theorem OneLexeme.ne_points {node : Node} {c : Char} {r rest : Text}
    (h : OneLexeme node (.word c r)) (hends : endsWord rest) :
    c :: (r ++ rest) ≠ ['.', '.', '.'] := by
  intro heq
  have hleaf := leafAt_eq_some_iff.mpr ⟨_, h, rfl, fun _ => hends⟩
  rw [Lexeme.text, List.cons_append, heq] at hleaf
  cases hleaf

theorem standing_word {node : Node} {c : Char} {r rest : Text} (h : OneLexeme node (.word c r))
    (hends : endsWord rest) : standing marks (c :: r ++ rest) = standing (finish marks) rest := by
  have hsymbolic : ∀ d ∈ c :: r, isSymbolChar d := h.all_isSymbolChar rfl
  rw [List.forall_mem_cons] at hsymbolic
  have hother : ∀ d : Char, isSymbolChar d = false → c ≠ d := by
    rintro d hd rfl
    rw [hsymbolic.1] at hd
    cases hd
  have hseparator : isSeparator c = false := by
    rw [Bool.eq_false_iff]
    intro hseparator
    exact hother c (not_isSymbolChar_of_isSeparator hseparator) rfl
  have hopening : c ∉ ['\'', '(', '\x7b'] := by
    simp only [List.mem_cons, List.not_mem_nil, or_false, not_or]
    exact ⟨hother _ (by decide), hother _ (by decide), hother _ (by decide)⟩
  have hclosing : c ∉ [')', '\x7d'] := by
    simp only [List.mem_cons, List.not_mem_nil, or_false, not_or]
    exact ⟨hother _ (by decide), hother _ (by decide)⟩
  have hrest : (r ++ rest).dropWhile isSymbolChar = rest :=
    congrArg Prod.snd (run_append hsymbolic.2 (head?_all_of_endsWord (fun _ h => h) hends))
  rw [List.cons_append, standing, if_neg (by simp [hseparator]),
    if_neg (hother _ (by decide)), if_neg hopening, if_neg hclosing, if_neg (hother _ (by decide)),
    if_neg (h.ne_points hends), hrest]

/-! ## What is read -/

theorem finish_opening {kind : Kind} {opening closing : Char} (h : Brackets kind opening closing)
    (marks : List Char) : finish (opening :: marks) = opening :: marks := by
  cases h <;> rfl

/-- Forms that are read leave open what was open, where no quotation mark waits for the first of
them. -/
theorem standing_reads {s rest : Text} {nodes : List Node} (h : Reads s nodes rest)
    (hone : ∀ s' node rest, s'.length ≤ s.length → readOne s' = some (node, rest) →
      ∀ marks, standing marks s' = standing (finish marks) rest)
    (hmarks : finish marks = marks) : standing marks s = standing marks rest := by
  induction h with
  | nil => rfl
  | @cons s t rest node nodes hread _ ih =>
    have hlength := length_lt_of_readOne hread
    have hskip := length_skipTrivia_le s
    rw [← standing_skipTrivia, hone _ _ _ hskip hread, hmarks]
    exact ih fun s' node rest hle => hone s' node rest (by omega)

/-- An expression that is read ends the quotation marks before it and leaves open what else was. -/
theorem standing_readOne {s rest : Text} {node : Node} (h : readOne s = some (node, rest)) :
    ∀ marks, standing marks s = standing (finish marks) rest := by
  refine readOne_induction
    (P := fun s _ rest => ∀ marks, standing marks s = standing (finish marks) rest) ?_ ?_ ?_ h
  · intro node l rest hlexeme hends marks
    cases l with
    | mark c => cases hlexeme
    | string body =>
      cases hlexeme with
      | string hbody => exact standing_string hbody rest
    | word c r => exact standing_word hlexeme (hends rfl)
  · intro t rest node hreads hone marks
    rw [standing_opening (by decide), ← standing_skipTrivia,
      hone _ _ _ (length_skipTrivia_le t) hreads.readOne]
    rfl
  · intro kind opening closing t after rest nodes hkind hreads hone hclosing marks
    have hopening : opening ∈ ['\'', '(', '\x7b'] := by cases hkind <;> decide
    rw [standing_opening hopening, standing_reads hreads hone (finish_opening hkind marks),
      ← standing_skipTrivia, hclosing, standing_closing hkind]

/-! ## What gets stuck -/

/-- Where `t` gets stuck before `u`, the text before `u` opens the given marks, the last one first,
and breaks off behind three points or not. -/
def Opens (t u : Text) (opened : List Char) (points : Bool) : Prop :=
  ∃ p, t = p ++ u ∧ ∀ marks, standing marks p = ⟨opened ++ marks, points⟩

theorem opens_leaf (t : Text) : Opens t (skipTrivia t) [] false := by
  obtain ⟨p, hp, ht⟩ := exists_finalTrivia t
  refine ⟨p, ht, fun marks => ?_⟩
  rw [← standing_skipTrivia, finalTrivia_iff.mp hp, standing_nil]
  rfl

theorem opens_spread {t u : Text} (ht : skipTrivia t = '.' :: '.' :: '.' :: u) :
    Opens t u [] true := by
  obtain ⟨gap, hgap, hsplit⟩ := exists_trivia (s := t) (by rw [ht]; simp)
  rw [ht] at hsplit
  refine ⟨gap ++ ['.', '.', '.'], by rw [hsplit]; simp, fun marks => ?_⟩
  rw [standing_trivia hgap, standing_points]
  rfl

theorem Opens.quote {t t' u : Text} {opened : List Char} {points : Bool}
    (ht : skipTrivia t = '\'' :: t') (h : Opens t' u opened points) :
    Opens t u (opened ++ ['\'']) points := by
  obtain ⟨gap, hgap, hsplit⟩ := exists_trivia (s := t) (by rw [ht]; simp)
  rw [ht] at hsplit
  obtain ⟨p, rfl, hstanding⟩ := h
  refine ⟨gap ++ '\'' :: p, by rw [hsplit]; simp, fun marks => ?_⟩
  rw [standing_trivia hgap, standing_opening (by decide), hstanding, List.append_assoc]
  rfl

theorem endsWord_of_append {p u : Text} (h : endsWord (p ++ u)) : endsWord p := by
  cases p with
  | nil => rfl
  | cons => exact h

theorem Opens.group {kind : Kind} {opening closing : Char} {t t' after u : Text}
    {nodes : List Node} {opened : List Char} {points : Bool} (hkind : Brackets kind opening closing)
    (ht : skipTrivia t = opening :: t') (hreads : Reads t' nodes after)
    (h : Opens after u opened points) : Opens t u (opened ++ [opening]) points := by
  obtain ⟨gap, hgap, hsplit⟩ := exists_trivia (s := t) (by rw [ht]; simp)
  rw [ht] at hsplit
  obtain ⟨q, rfl, hbefore⟩ := reads_before hreads fun _ _ _ _ => readOne_before
  obtain ⟨p, rfl, hstanding⟩ := h
  have hopening : opening ∈ ['\'', '(', '\x7b'] := by cases hkind <;> decide
  have hinner : Reads (q ++ p) nodes p := hbefore p endsWord_of_append
  refine ⟨gap ++ opening :: (q ++ p), by rw [hsplit]; simp, fun marks => ?_⟩
  rw [standing_trivia hgap, standing_opening hopening,
    standing_reads hinner (fun _ _ _ _ => standing_readOne) (finish_opening hkind marks),
    hstanding, List.append_assoc]
  rfl

end TokenCorpus.Script
