import TokenCorpus.Proofs.Script.Acceptance

/-!
How far the parser comes.

Where no expression can be read, the parser has still come to some place: past the quotation marks and
brackets that are open there, and past the three points of a spread symbol. `Stuck` says which place
that is, from the text alone. Main statement: the furthest place among the attempts of a refused
script is the one where its first unreadable expression gets stuck.
-/

namespace TokenCorpus.Script

/-- An expression that goes on past its first character begins here. -/
def OpensFurther (s : Text) : Prop :=
  ∃ t, s = '\'' :: t ∨ s = '(' :: t ∨ s = '\x7b' :: t ∨ s = '.' :: '.' :: '.' :: t

/-- No expression can be read at the front of the first text, and it is at the front of the second
one that it gets stuck. -/
inductive Stuck : Text → Text → Prop
  | leaf {s : Text} (hopens : ¬ OpensFurther s) (hleaf : leafAt s = none) : Stuck s s
  | spread {t : Text} (h : symbol? t = none) : Stuck ('.' :: '.' :: '.' :: t) t
  | quote {t u : Text} (h : Stuck (skipTrivia t) u) : Stuck ('\'' :: t) u
  | group {kind : Kind} {opening closing : Char} {t rest u : Text} {nodes : List Node}
      (hkind : Brackets kind opening closing) (hreads : Reads t nodes rest)
      (hopen : ∀ r, skipTrivia rest ≠ closing :: r) (h : Stuck (skipTrivia rest) u) :
      Stuck (opening :: t) u

theorem length_le_of_reads {s rest : Text} {nodes : List Node} (h : Reads s nodes rest) :
    rest.length ≤ s.length := by
  induction h with
  | nil => exact Nat.le_refl _
  | @cons s t rest _ _ hone _ ih =>
    have := length_lt_of_readOne hone
    have := length_skipTrivia_le s
    omega

theorem Stuck.length_le {s u : Text} (h : Stuck s u) : u.length ≤ s.length := by
  induction h with
  | leaf => exact Nat.le_refl _
  | spread => simp only [List.length_cons]; omega
  | @quote t u _ ih =>
    have := length_skipTrivia_le t
    rw [List.length_cons]
    omega
  | @group kind opening closing t rest u nodes _ hreads _ _ ih =>
    have := length_le_of_reads hreads
    have := length_skipTrivia_le rest
    rw [List.length_cons]
    omega

/-- The parser comes no further than a closing bracket that it does not look for. -/
theorem Stuck.eq_of_closing {c : Char} {t u : Text} (hc : c = ')' ∨ c = '\x7d')
    (h : Stuck (c :: t) u) : u = c :: t := by
  generalize hs : c :: t = s at h
  cases h with
  | leaf => rfl
  | spread | quote =>
    obtain ⟨rfl, _⟩ := List.cons.inj hs
    rcases hc with hc | hc <;> exact absurd hc (by decide)
  | group hkind =>
    obtain ⟨rfl, _⟩ := List.cons.inj hs
    cases hkind <;> rcases hc with hc | hc <;> exact absurd hc (by decide)

/-! ## The furthest place -/

theorem Attempts.left_note (a : Attempts) (form : Expected) (left : Nat) (before : Attempts) :
    (a.note form left before).left = min a.left left := by
  unfold Attempts.note
  dsimp only
  split
  · next h =>
    have heq : a.left = left := by
      by_contra hne
      rw [Attempts.countAt, if_neg hne] at h
      omega
    omega
  split
  · next heq =>
    rw [heq, Nat.min_self]
  split
  · next hlt => exact (Nat.min_eq_right (Nat.le_of_lt hlt)).symm
  · next hle => exact (Nat.min_eq_left (Nat.le_of_not_lt hle)).symm

/-- Forms that fail one after the other, each without parts, with `left` characters left. -/
def Attempts.noteAll (a : Attempts) (forms : List Expected) (left : Nat) : Attempts :=
  forms.foldl (fun a form => a.note form left a) a

theorem Attempts.left_noteAll (a : Attempts) (form : Expected) (forms : List Expected)
    (left : Nat) : (a.noteAll (form :: forms) left).left = min a.left left := by
  induction forms generalizing a form with
  | nil => exact left_note ..
  | cons next forms ih =>
    rw [noteAll, List.foldl_cons]
    refine (ih (a.note form left a) next).trans ?_
    rw [left_note, Nat.min_assoc, Nat.min_self]

/-- The attempts of a reply have not come as far as what follows what was found, or else have come
to the front of `u`. -/
def Reply.Stops {s : Text} (u : Text) : Reply s → Prop
  | found _ rest _ a => rest.length < a.left
  | refused a => a.left = u.length

section Parsers

variable {s u : Text} {f g : Attempts → Reply s}

/-- Begun at `s`, the parser comes to the front of `u` where it refuses. -/
def Reaches (f : Attempts → Reply s) (u : Text) : Prop := ∀ a, s.length ≤ a.left → (f a).Stops u

/-- The parser refuses `s` at its first character, after it has looked for the given forms there. -/
def Declines (f : Attempts → Reply s) (forms : List Expected) : Prop :=
  ∀ a, f a = .refused (a.noteAll forms s.length)

theorem Declines.reaches {form : Expected} {forms : List Expected}
    (h : Declines f (form :: forms)) : Reaches f s := by
  intro a hfresh
  rw [h a]
  exact (a.left_noteAll ..).trans (Nat.min_eq_right hfresh)

theorem Declines.orElse {forms more : List Expected} (hf : Declines f forms)
    (hg : Declines g more) : Declines (fun a => (f a).orElse g) (forms ++ more) := by
  intro a
  change (f a).orElse g = _
  rw [hf a]
  change g (a.noteAll forms s.length) = _
  rw [hg, Attempts.noteAll, Attempts.noteAll, Attempts.noteAll, List.foldl_append]

theorem Reaches.orElse (hf : Reaches f s) (hg : Reaches g u) :
    Reaches (fun a => (f a).orElse g) u := by
  intro a hfresh
  have hstops := hf a hfresh
  change ((f a).orElse g).Stops u
  cases hreply : f a with
  | found node rest shorter b =>
    rw [hreply] at hstops
    exact hstops
  | refused b =>
    rw [hreply] at hstops
    exact hg b (Nat.le_of_eq hstops.symm)

theorem Reaches.orElse_declines {form : Expected} {forms : List Expected} (hf : Reaches f u)
    (hu : u.length ≤ s.length) (hg : Declines g (form :: forms)) :
    Reaches (fun a => (f a).orElse g) u := by
  intro a hfresh
  have hstops := hf a hfresh
  change ((f a).orElse g).Stops u
  cases hreply : f a with
  | found node rest shorter b =>
    rw [hreply] at hstops
    exact hstops
  | refused b =>
    rw [hreply] at hstops
    have hb : b.left = u.length := hstops
    change (g b).Stops u
    rw [hg b]
    refine (b.left_noteAll ..).trans ?_
    omega

end Parsers

theorem reaches_word (form : Expected) (k : Scanner) (leaf : Text → Node) (s : Text) :
    Reaches (word form k leaf s) s := by
  intro a hfresh
  unfold word
  split
  · next h =>
    have := k.length_lt h
    exact Nat.lt_of_lt_of_le this hfresh
  · exact (Attempts.left_note ..).trans (Nat.min_eq_right hfresh)

theorem declines_word {form : Expected} {k : Scanner} {leaf : Text → Node} {s : Text}
    (h : k.scan s = none) : Declines (word form k leaf s) [form] := by
  intro a
  unfold word
  split
  · next hscan =>
    rw [h] at hscan
    cases hscan
  · rfl

theorem declines_quote {s : Text} (h : ∀ t, s ≠ '\'' :: t) : Declines (quote s) [.quote] := by
  intro a
  rw [quote]
  · rfl
  · exact h

theorem declines_spread {s : Text} (h : ∀ t, s ≠ '.' :: '.' :: '.' :: t) :
    Declines (spread s) [.spread] := by
  intro a
  rw [spread]
  · rfl
  · exact h

theorem declines_group {form : Expected} {kind : Kind} {opening closing : Char} {s : Text}
    (h : ∀ t, s ≠ opening :: t) : Declines (group form kind opening closing s) [form] := by
  intro a
  cases s with
  | nil => rw [group]; rfl
  | cons c t =>
    rw [group, if_neg (fun hc => h t (by rw [hc]))]
    rfl

/-- The alternatives that are words. -/
def words (s : Text) (a : Attempts) : Reply s :=
  (word .number numberWord .literal s a).orElse fun a =>
  (word .string stringWord .literal s a).orElse fun a =>
  (word .boolean booleanWord .literal s a).orElse fun a =>
  word .symbol symbolWord .identifier s a

theorem expression_eq (s : Text) (a : Attempts) :
    expression s a =
      (quote s a).orElse fun a => (spread s a).orElse fun a =>
        (group .list .list '(' ')' s a).orElse fun a =>
          (group .block .block '\x7b' '\x7d' s a).orElse (words s) := by
  rw [expression]
  rfl

theorem reaches_words (s : Text) : Reaches (words s) s := by
  unfold words
  have hword : ∀ form k leaf, Reaches (word form k leaf s) s := fun _ _ _ => reaches_word _ _ _ s
  exact (hword _ _ _).orElse <| (hword _ _ _).orElse <| (hword _ _ _).orElse (hword _ _ _)

/-- The scanners refuse a text whose first character begins no word. -/
theorem scan_eq_none {c : Char} {t : Text} (hstart : isSymbolStart c = false)
    (hdigit : c.isDigit = false) (hquote : c ≠ '"') :
    numberWord.scan (c :: t) = none ∧ stringWord.scan (c :: t) = none ∧
      booleanWord.scan (c :: t) = none ∧ symbolWord.scan (c :: t) = none := by
  refine ⟨?_, ?_, ?_, ?_⟩
  · change number? (c :: t) = none
    unfold number?
    split
    · next heq =>
      rw [(List.cons.inj heq).1] at hstart
      exact absurd hstart (by decide)
    · simp [unsigned?, run, hdigit]
  · change string? (c :: t) = none
    unfold string?
    split
    · next heq => exact absurd (List.cons.inj heq).1 hquote
    · rfl
  · rw [Option.eq_none_iff_forall_ne_some]
    rintro ⟨w, rest⟩ h
    obtain ⟨hw, heq, _⟩ := boolean?_eq_some_iff.mp h
    rcases hw with rfl | rfl
    · rw [(List.cons.inj heq).1] at hstart
      exact absurd hstart (by decide)
    · rw [(List.cons.inj heq).1] at hstart
      exact absurd hstart (by decide)
  · change symbol? (c :: t) = none
    rw [symbol?, if_neg (by rw [hstart]; exact Bool.false_ne_true)]

theorem declines_words {s : Text}
    (h : numberWord.scan s = none ∧ stringWord.scan s = none ∧ booleanWord.scan s = none ∧
      symbolWord.scan s = none) : Declines (words s) [.number, .string, .boolean, .symbol] := by
  obtain ⟨hnumber, hstring, hboolean, hsymbol⟩ := h
  unfold words
  exact (declines_word hnumber).orElse <| (declines_word hstring).orElse <|
    (declines_word hboolean).orElse (declines_word hsymbol)

/-- No word begins with a quotation mark, a bracket or a point. -/
theorem declines_words_of_opening {c : Char} (hc : c ∈ ['\'', '(', '\x7b', '.']) (t : Text) :
    Declines (words (c :: t)) [.number, .string, .boolean, .symbol] := by
  refine declines_words (scan_eq_none ?_ ?_ ?_)
  all_goals
    simp only [List.mem_cons, List.not_mem_nil, or_false] at hc
    obtain rfl | rfl | rfl | rfl := hc <;> decide

theorem reaches_spread {t : Text} : Reaches (spread ('.' :: '.' :: '.' :: t)) t := by
  intro a hfresh
  have hfresh' : t.length ≤ a.left := by
    simp only [List.length_cons] at hfresh
    omega
  have hstops := reaches_word .symbol symbolWord .identifier t a hfresh'
  rw [spread]
  cases hreply : word .symbol symbolWord .identifier t a with
  | found node rest shorter b =>
    rw [hreply] at hstops
    exact hstops
  | refused b =>
    rw [hreply] at hstops
    have hb : b.left = t.length := hstops
    refine (Attempts.left_note ..).trans ?_
    simp only [List.length_cons]
    omega

theorem reaches_quote {t u : Text} (hu : u.length ≤ t.length)
    (h : Reaches (expression (skipTrivia t)) u) : Reaches (quote ('\'' :: t)) u := by
  intro a hfresh
  have := length_skipTrivia_le t
  rw [List.length_cons] at hfresh
  have hstops := h a (by omega)
  rw [quote]
  split
  · next hreply =>
    rw [hreply] at hstops
    exact hstops
  · next b hreply =>
    rw [hreply] at hstops
    have hb : b.left = u.length := hstops
    refine (Attempts.left_note ..).trans ?_
    rw [List.length_cons]
    omega

/-- A row of expressions that begins at `s` ends where the attempts come to the front of `u`. -/
def RowReaches (s u : Text) : Prop := ∀ a, s.length ≤ a.left → (row s a).attempts.left = u.length

theorem reaches_group {form : Expected} {kind : Kind} {opening closing : Char} {t u : Text}
    (hu : u.length ≤ t.length)
    (hclosed : ∀ rest, (readRow (skipTrivia t)).2 = closing :: rest → rest.length < u.length)
    (h : RowReaches (skipTrivia t) u) : Reaches (group form kind opening closing (opening :: t)) u := by
  intro a hfresh
  have := length_skipTrivia_le t
  rw [List.length_cons] at hfresh
  have hleft := h a (by omega)
  have hread := congrArg Prod.snd (read_row_eq_readRow (skipTrivia t) a)
  have hrefused : ((row (skipTrivia t) a).attempts.note form (opening :: t).length a).left =
      u.length := by
    refine (Attempts.left_note ..).trans ?_
    rw [List.length_cons]
    omega
  rw [group, if_pos rfl]
  dsimp only
  split
  · exact hrefused
  · next d rest hrest =>
    split
    · next hd =>
      subst hd
      have hlt := hclosed rest (hread.symm.trans hrest)
      exact Nat.lt_of_lt_of_eq hlt hleft.symm
    · exact hrefused

/-! ## Where an expression gets stuck -/

/-- An expression is read at `s`, or it gets stuck where the attempts come to. -/
def ReadOrStuck (s : Text) : Prop :=
  ∃ u, u.length ≤ s.length ∧ Reaches (expression s) u ∧ (readOne s = none → Stuck s u)

/-- A row of expressions ends where the next one would get stuck, and there the attempts come to. -/
def RowStuck (s : Text) : Prop := ∃ u, Stuck (readRow s).2 u ∧ RowReaches s u

/-- The alternatives behind the one that goes on past the front look for their forms in vain. -/
theorem declines_behind_quote (t : Text) :
    Declines (fun a => (spread ('\'' :: t) a).orElse fun a =>
        (group .list .list '(' ')' ('\'' :: t) a).orElse fun a =>
          (group .block .block '\x7b' '\x7d' ('\'' :: t) a).orElse (words ('\'' :: t)))
      [.spread, .list, .block, .number, .string, .boolean, .symbol] :=
  (declines_spread (by simp)).orElse <| (declines_group (by simp)).orElse <|
    (declines_group (by simp)).orElse (declines_words_of_opening (by simp) t)

theorem declines_behind_spread (t : Text) :
    Declines (fun a => (group .list .list '(' ')' ('.' :: '.' :: '.' :: t) a).orElse fun a =>
        (group .block .block '\x7b' '\x7d' ('.' :: '.' :: '.' :: t) a).orElse
          (words ('.' :: '.' :: '.' :: t)))
      [.list, .block, .number, .string, .boolean, .symbol] :=
  (declines_group (by simp)).orElse <| (declines_group (by simp)).orElse <|
    declines_words_of_opening (by simp) _

theorem declines_behind_list (t : Text) :
    Declines (fun a => (group .block .block '\x7b' '\x7d' ('(' :: t) a).orElse (words ('(' :: t)))
      [.block, .number, .string, .boolean, .symbol] :=
  (declines_group (by simp)).orElse (declines_words_of_opening (by simp) t)

theorem readOrStuck_quote {t : Text} (h : ReadOrStuck (skipTrivia t)) :
    ReadOrStuck ('\'' :: t) := by
  obtain ⟨u, hlength, hreaches, hstuck⟩ := h
  have hu : u.length ≤ t.length := Nat.le_trans hlength (length_skipTrivia_le t)
  have hu' : u.length ≤ ('\'' :: t).length := by
    rw [List.length_cons]
    omega
  refine ⟨u, hu', ?_, ?_⟩
  · intro a
    rw [expression_eq]
    exact (reaches_quote hu hreaches).orElse_declines hu' (declines_behind_quote t) a
  · intro hnone
    rw [readOne_quote, Option.map_eq_none_iff] at hnone
    exact .quote (hstuck hnone)

theorem readOrStuck_spread {t : Text} : ReadOrStuck ('.' :: '.' :: '.' :: t) := by
  have hu : t.length ≤ ('.' :: '.' :: '.' :: t).length := by
    simp only [List.length_cons]
    omega
  refine ⟨t, hu, ?_, ?_⟩
  · have hquote : Declines (quote ('.' :: '.' :: '.' :: t)) [.quote] := declines_quote (by simp)
    intro a
    rw [expression_eq]
    exact hquote.reaches.orElse (reaches_spread.orElse_declines hu (declines_behind_spread t)) a
  · intro hnone
    refine .spread ?_
    rw [readOne_of_ne (by simp) (by simp) (by simp), leafAt, Option.or_eq_none_iff] at hnone
    have hspread := hnone.1
    rw [spreadAt, Scanner.leaf, Option.map_eq_none_iff] at hspread
    exact hspread

theorem readOrStuck_group {kind : Kind} {opening closing : Char} {t : Text}
    (hkind : Brackets kind opening closing) (h : RowStuck (skipTrivia t)) :
    ReadOrStuck (opening :: t) := by
  obtain ⟨u, hstuck, hreaches⟩ := h
  obtain ⟨rest, hreads, hrest⟩ := exists_reads t
  rw [hrest] at hstuck
  have hu : u.length ≤ t.length := by
    have := hstuck.length_le
    have := length_skipTrivia_le rest
    have := length_le_of_reads hreads
    omega
  have hu' : u.length ≤ (opening :: t).length := by
    rw [List.length_cons]
    omega
  have hclosed : ∀ r, (readRow (skipTrivia t)).2 = closing :: r → r.length < u.length := by
    intro r hr
    rw [← hrest, hr] at hstuck
    have hclosing : closing = ')' ∨ closing = '\x7d' := by
      cases hkind with
      | list => exact Or.inl rfl
      | block => exact Or.inr rfl
    rw [hstuck.eq_of_closing hclosing, List.length_cons]
    omega
  have hgroup : ∀ form, Reaches (group form kind opening closing (opening :: t)) u :=
    fun _ => reaches_group hu hclosed hreaches
  refine ⟨u, hu', fun a => ?_, ?_⟩
  · rw [expression_eq]
    cases hkind with
    | list =>
      have hquote : Declines (quote ('(' :: t)) [.quote] := declines_quote (by simp)
      have hspread : Declines (spread ('(' :: t)) [.spread] := declines_spread (by simp)
      exact hquote.reaches.orElse (hspread.reaches.orElse
        ((hgroup .list).orElse_declines hu' (declines_behind_list t))) a
    | block =>
      have hquote : Declines (quote ('\x7b' :: t)) [.quote] := declines_quote (by simp)
      have hspread : Declines (spread ('\x7b' :: t)) [.spread] := declines_spread (by simp)
      have hlist : Declines (group .list .list '(' ')' ('\x7b' :: t)) [.list] :=
        declines_group (by simp)
      have hwords := declines_words_of_opening (c := '\x7b') (by simp) t
      exact hquote.reaches.orElse (hspread.reaches.orElse
        (hlist.reaches.orElse ((hgroup .block).orElse_declines hu' hwords))) a
  · intro hnone
    refine .group hkind hreads (fun r hr => ?_) hstuck
    have hrow : readRow (skipTrivia t) = ((readRow (skipTrivia t)).1, closing :: r) :=
      Prod.ext rfl (hrest.trans hr)
    rw [readOne_group hkind, hrow, closeRow, if_pos rfl] at hnone
    cases hnone

theorem readOrStuck_leaf {s : Text} (h : ¬ OpensFurther s) : ReadOrStuck s := by
  have hquote : ∀ t, s ≠ '\'' :: t := fun t ht => h ⟨t, Or.inl ht⟩
  have hlist : ∀ t, s ≠ '(' :: t := fun t ht => h ⟨t, Or.inr (Or.inl ht)⟩
  have hblock : ∀ t, s ≠ '\x7b' :: t := fun t ht => h ⟨t, Or.inr (Or.inr (Or.inl ht))⟩
  have hspread : ∀ t, s ≠ '.' :: '.' :: '.' :: t := fun t ht => h ⟨t, Or.inr (Or.inr (Or.inr ht))⟩
  refine ⟨s, Nat.le_refl _, fun a => ?_, fun hnone => ?_⟩
  · rw [expression_eq]
    exact (declines_quote hquote).reaches.orElse ((declines_spread hspread).reaches.orElse
      ((declines_group hlist).reaches.orElse ((declines_group hblock).reaches.orElse
        (reaches_words s)))) a
  · rw [readOne_of_ne hquote hlist hblock] at hnone
    exact .leaf h hnone

/-- Where an expression is read, a row goes on behind it, and the attempts have not come there. -/
theorem Reaches.exists_row {s rest v : Text} {node : Node} (h : Reaches (expression s) v)
    (hread : readOne s = some (node, rest)) {a : Attempts} (hfresh : s.length ≤ a.left) :
    ∃ b : Attempts, (skipTrivia rest).length < b.left ∧
      (row s a).attempts = (row (skipTrivia rest) b).attempts := by
  have hstops := h a hfresh
  have hfound := found?_expression_eq_readOne s a
  rw [hread] at hfound
  rw [row]
  cases hreply : expression s a with
  | found node' rest' shorter b =>
    rw [hreply] at hfound hstops
    obtain ⟨rfl, rfl⟩ := Prod.mk.inj (Option.some.inj hfound)
    exact ⟨b, Nat.lt_of_le_of_lt (length_skipTrivia_le _) hstops, rfl⟩
  | refused b =>
    rw [hreply] at hfound
    cases hfound

theorem Reaches.row_of_readOne {s rest u v : Text} {node : Node} (h : Reaches (expression s) v)
    (hread : readOne s = some (node, rest)) (hmore : RowReaches (skipTrivia rest) u) :
    RowReaches s u := by
  intro a hfresh
  obtain ⟨b, hlt, hattempts⟩ := h.exists_row hread hfresh
  rw [hattempts]
  exact hmore b (Nat.le_of_lt hlt)

theorem rowStuck {s : Text} (h : ReadOrStuck s)
    (hmore : ∀ node rest, readOne s = some (node, rest) → RowStuck (skipTrivia rest)) :
    RowStuck s := by
  obtain ⟨u, _, hreaches, hstuck⟩ := h
  cases hread : readOne s with
  | none =>
    rw [RowStuck, readRow_of_none hread]
    refine ⟨u, hstuck hread, fun a hfresh => ?_⟩
    have hstops := hreaches a hfresh
    have hfound := found?_expression_eq_readOne s a
    rw [hread] at hfound
    rw [row]
    cases hreply : expression s a with
    | found node rest shorter b =>
      rw [hreply] at hfound
      cases hfound
    | refused b =>
      rw [hreply] at hstops
      exact hstops
  | some found =>
    obtain ⟨node, rest⟩ := found
    obtain ⟨u', hstuck', hreaches'⟩ := hmore node rest hread
    rw [RowStuck, readRow_of_some hread]
    exact ⟨u', hstuck', hreaches.row_of_readOne hread hreaches'⟩

theorem readOrStuck_and_rowStuck (s : Text) : ReadOrStuck s ∧ RowStuck s := by
  induction hn : s.length using Nat.strong_induction_on generalizing s with
  | _ n ih =>
    have hinner : ∀ {c : Char} {t : Text}, s = c :: t →
        ReadOrStuck (skipTrivia t) ∧ RowStuck (skipTrivia t) := by
      intro c t hs
      have := length_skipTrivia_le t
      rw [hs, List.length_cons] at hn
      exact ih _ (by omega) _ rfl
    have hone : ReadOrStuck s := by
      by_cases hopens : OpensFurther s
      · obtain ⟨t, rfl | rfl | rfl | rfl⟩ := hopens
        · exact readOrStuck_quote (hinner rfl).1
        · exact readOrStuck_group .list (hinner rfl).2
        · exact readOrStuck_group .block (hinner rfl).2
        · exact readOrStuck_spread
      · exact readOrStuck_leaf hopens
    refine ⟨hone, rowStuck hone fun node rest hread => ?_⟩
    have := length_lt_of_readOne hread
    have := length_skipTrivia_le rest
    exact (ih _ (by omega) _ rfl).2

/-- A row of expressions comes as far as what follows those that are read. -/
theorem Reads.rowReaches {s rest u : Text} {nodes : List Node} (h : Reads s nodes rest)
    (hrest : RowReaches (skipTrivia rest) u) : RowReaches (skipTrivia s) u := by
  induction h with
  | nil => exact hrest
  | cons hone _ ih =>
    obtain ⟨v, -, hreaches, -⟩ := (readOrStuck_and_rowStuck _).1
    exact hreaches.row_of_readOne hone (ih hrest)

/-- Noting that the end of the text was looked for, and then that the script was, brings the attempts
no further. -/
theorem left_of_program_eq_error {source u : Text} {a : Attempts}
    (hreaches : RowReaches (skipTrivia source) u)
    (hu : u.length ≤ (readRow (skipTrivia source)).2.length) (h : program source = .error a) :
    a.left = u.length := by
  have hleft := hreaches (.start source) (length_skipTrivia_le source)
  have hread := congrArg Prod.snd (read_row_eq_readRow (skipTrivia source) (.start source))
  have hend := (row (skipTrivia source) (.start source)).le
  have := length_skipTrivia_le source
  unfold program at h
  dsimp only at h
  split at h
  · cases h
  · rw [← Except.error.inj h, Attempts.left_note, Attempts.left_note, hleft]
    rw [← hread] at hu
    change u.length ≤ (row (skipTrivia source) (.start source)).rest.length at hu
    omega

/-- The attempts of a refused script come to the place where its first unreadable expression gets
stuck. -/
theorem program_eq_error {source : Text} {a : Attempts} (h : program source = .error a) :
    ∃ nodes rest u, Reads source nodes rest ∧ skipTrivia rest ≠ [] ∧ Stuck (skipTrivia rest) u ∧
      a.left = u.length := by
  obtain ⟨rest, hreads, hrest⟩ := exists_reads source
  obtain ⟨u, hstuck, hreaches⟩ := (readOrStuck_and_rowStuck (skipTrivia source)).2
  have hleft := left_of_program_eq_error hreaches hstuck.length_le h
  rw [hrest] at hstuck
  refine ⟨_, rest, u, hreads, fun hnil => ?_, hstuck, hleft⟩
  rw [program_eq_ok_iff.mpr ⟨hrest.trans hnil, rfl⟩] at h
  cases h

end TokenCorpus.Script
