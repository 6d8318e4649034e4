import TokenCorpus.Proofs.Script.Standing

/-!
What the error of a refused script lists.

Many forms are looked for and missed on the way to the place of the error, and most of them leave
no trace: those that fail where others have failed further on are forgotten, and so is a form whose
parts failed behind its front. What is left are the forms looked for at the place itself. Main
statement: the text before the place decides which these are.
-/

namespace TokenCorpus.Script

/-- The forms looked for where an expression gets stuck. -/
def lookedFor (behindPoints : Bool) : List Expected :=
  if behindPoints then [.symbol]
  else [.quote, .spread, .list, .block, .number, .string, .boolean, .symbol]

namespace Attempts

variable {a : Attempts} {left : Nat}

/-- Nothing is listed for the place with `left` characters left, and none was reached behind it. -/
def Fresh (a : Attempts) (left : Nat) : Prop := left ≤ a.left ∧ a.countAt left = 0

theorem Fresh.of_lt (h : left < a.left) : a.Fresh left :=
  ⟨Nat.le_of_lt h, if_neg (Nat.ne_of_gt h)⟩

theorem fresh_start {s : Text} (h : left ≤ s.length) : (start s).Fresh left := by
  refine ⟨h, ?_⟩
  rw [countAt]
  split <;> rfl

/-- A form that fails before the furthest place leaves no trace. -/
theorem note_behind (h : a.left < left) (form : Expected) (before : Attempts) :
    a.note form left before = a := by
  have hcount : a.countAt left = 0 := if_neg (Nat.ne_of_lt h)
  unfold note
  dsimp only
  rw [hcount, if_neg (by omega), if_neg (by omega), if_neg (by omega)]

theorem noteAll_behind (h : a.left < left) (forms : List Expected) : a.noteAll forms left = a := by
  induction forms with
  | nil => rfl
  | cons form forms ih =>
    rw [noteAll, List.foldl_cons, note_behind h]
    exact ih

theorem note_here (left : Nat) (failed : List Expected) (form : Expected) :
    note ⟨left, failed⟩ form left ⟨left, failed⟩ = ⟨left, failed ++ [form]⟩ := by
  have hcount : countAt ⟨left, failed⟩ left = failed.length := if_pos rfl
  unfold note
  dsimp only
  rw [hcount, if_neg (by omega), if_pos rfl, List.take_length]

theorem noteAll_here (left : Nat) (failed forms : List Expected) :
    noteAll ⟨left, failed⟩ forms left = ⟨left, failed ++ forms⟩ := by
  induction forms generalizing failed with
  | nil => rw [List.append_nil]; rfl
  | cons form forms ih =>
    rw [noteAll, List.foldl_cons, note_here]
    refine (ih (failed ++ [form])).trans ?_
    rw [List.append_assoc]
    rfl

/-- A form stands for several that failed at its front. -/
theorem note_whole (left : Nat) {failed : List Expected} (h : failed.length ≠ 1) (form : Expected) :
    note ⟨left, failed⟩ form left ⟨left, []⟩ = ⟨left, [form]⟩ := by
  have hcount : ∀ forms, countAt ⟨left, forms⟩ left = forms.length := fun _ => if_pos rfl
  unfold note
  dsimp only
  rw [hcount, hcount, List.length_nil, if_neg h, if_pos rfl, List.take_zero, List.nil_append]

theorem note_fresh (h : a.Fresh left) (form : Expected) : a.note form left a = ⟨left, [form]⟩ := by
  unfold note
  dsimp only
  rw [h.2, if_neg (by omega), List.take_zero, List.nil_append]
  split
  · rfl
  · next hne =>
    have hle := h.1
    rw [if_pos (by omega)]

/-- Forms that fail at a place not reached before are all that is listed. -/
theorem noteAll_fresh (h : a.Fresh left) (form : Expected) (forms : List Expected) :
    a.noteAll (form :: forms) left = ⟨left, form :: forms⟩ := by
  rw [noteAll, List.foldl_cons, note_fresh h]
  exact noteAll_here left [form] forms

end Attempts

section Parsers

variable {s : Text} {f g : Attempts → Reply s} {e : Attempts} {form : Expected}
  {forms : List Expected}

/-- Begun at `s`, the parser refuses, and what it leaves are the attempts `e`. -/
def Halts (f : Attempts → Reply s) (e : Attempts) : Prop :=
  ∀ a : Attempts, s.length ≤ a.left → f a = .refused e

theorem Declines.orElse_halts (hf : Declines f (form :: forms)) (hg : Halts g e) :
    Halts (fun a => (f a).orElse g) e := by
  intro a hle
  change (f a).orElse g = _
  rw [hf a]
  refine hg _ ?_
  rw [Attempts.left_noteAll, Nat.min_eq_right hle]

/-- What is looked for in vain at the front makes no difference once the parser has come further. -/
theorem Halts.orElse_declines (hf : Halts f e) (he : e.left < s.length) (hg : Declines g forms) :
    Halts (fun a => (f a).orElse g) e := by
  intro a hle
  change (f a).orElse g = _
  rw [hf a hle]
  change g e = _
  rw [hg e, Attempts.noteAll_behind he]

end Parsers

theorem halts_spread {t : Text} (h : symbol? t = none) :
    Halts (spread ('.' :: '.' :: '.' :: t)) ⟨t.length, [.symbol]⟩ := by
  intro a hle
  have hlt : t.length < a.left := by
    simp only [List.length_cons] at hle
    omega
  have hscan : symbolWord.scan t = none := h
  have hword : word .symbol symbolWord .identifier t a = .refused ⟨t.length, [.symbol]⟩ := by
    rw [declines_word hscan a, Attempts.noteAll_fresh (.of_lt hlt)]
  rw [spread, hword]
  refine congrArg Reply.refused (Attempts.note_behind ?_ _ _)
  simp only [List.length_cons]
  omega

theorem halts_quote {t : Text} {e : Attempts} (he : e.left < ('\'' :: t).length)
    (h : ∀ a : Attempts, a.Fresh (skipTrivia t).length → expression (skipTrivia t) a = .refused e) :
    Halts (quote ('\'' :: t)) e := by
  intro a hle
  have := length_skipTrivia_le t
  rw [List.length_cons] at hle
  have hinner := h a (.of_lt (by omega))
  rw [quote]
  split
  · next hreply =>
    rw [hinner] at hreply
    cases hreply
  · next hreply =>
    rw [hinner] at hreply
    cases hreply
    rw [Attempts.note_behind he]

theorem halts_group {form : Expected} {kind : Kind} {opening closing : Char} {t : Text}
    {e : Attempts} (he : e.left < (opening :: t).length)
    (hopen : ∀ r, (readRow (skipTrivia t)).2 ≠ closing :: r)
    (h : ∀ a : Attempts, a.Fresh (skipTrivia t).length → (row (skipTrivia t) a).attempts = e) :
    Halts (group form kind opening closing (opening :: t)) e := by
  intro a hle
  have := length_skipTrivia_le t
  rw [List.length_cons] at hle
  have hinner := h a (.of_lt (by omega))
  have hread := congrArg Prod.snd (read_row_eq_readRow (skipTrivia t) a)
  have hrefused : (row (skipTrivia t) a).attempts.note form (opening :: t).length a = e := by
    rw [hinner, Attempts.note_behind he]
  rw [group, if_pos rfl]
  dsimp only
  split
  · rw [hrefused]
  · next d rest hrest =>
    split
    · next hd =>
      subst hd
      exact absurd (hread.symm.trans hrest) (hopen rest)
    · rw [hrefused]

/-- No expression can be read at `s`, and it is at `u` that it gets stuck: there the parser looks
for the forms that it reports, and the text before tells what is open there. -/
structure BreaksOff (s u : Text) (behindPoints : Bool) : Prop where
  refused : ∀ a : Attempts, a.Fresh s.length →
    expression s a = .refused ⟨u.length, lookedFor behindPoints⟩
  opens : ∀ t, skipTrivia t = s → ∃ opened, Opens t u opened behindPoints ∧
    (opened = [] ∧ behindPoints = false ↔ u.length = s.length)

theorem BreaksOff.readOne {s u : Text} {behindPoints : Bool} (h : BreaksOff s u behindPoints) :
    readOne s = none := by
  rw [Script.readOne, h.refused _ (Attempts.fresh_start (Nat.le_refl _))]
  rfl

/-- A row ends where its last expression breaks off, with what was looked for there. -/
theorem BreaksOff.attempts_row {s rest u : Text} {nodes : List Node} {behindPoints : Bool}
    (h : BreaksOff (skipTrivia rest) u behindPoints) (hreads : Reads s nodes rest) {a : Attempts}
    (hfresh : a.Fresh (skipTrivia s).length) :
    (row (skipTrivia s) a).attempts = ⟨u.length, lookedFor behindPoints⟩ := by
  induction hreads generalizing a with
  | nil => rw [row, h.refused a hfresh]
  | cons hone _ ih =>
    obtain ⟨v, -, hreaches, -⟩ := (readOrStuck_and_rowStuck _).1
    obtain ⟨b, hlt, hattempts⟩ := hreaches.exists_row hone hfresh.1
    rw [hattempts]
    exact ih h (.of_lt hlt)

theorem breaksOff_leaf {s : Text} (hopens : ¬ OpensFurther s) (hleaf : leafAt s = none) :
    BreaksOff s s false := by
  have hquote : ∀ t, s ≠ '\'' :: t := fun t ht => hopens ⟨t, Or.inl ht⟩
  have hlist : ∀ t, s ≠ '(' :: t := fun t ht => hopens ⟨t, Or.inr (Or.inl ht)⟩
  have hblock : ∀ t, s ≠ '\x7b' :: t := fun t ht => hopens ⟨t, Or.inr (Or.inr (Or.inl ht))⟩
  have hspread : ∀ t, s ≠ '.' :: '.' :: '.' :: t :=
    fun t ht => hopens ⟨t, Or.inr (Or.inr (Or.inr ht))⟩
  have hscans : numberWord.scan s = none ∧ stringWord.scan s = none ∧ booleanWord.scan s = none ∧
      symbolWord.scan s = none := by
    rw [leafAt, Option.or_eq_none_iff] at hleaf
    simpa only [Option.or_eq_none_iff, Scanner.leaf, Option.map_eq_none_iff] using hleaf.2
  have hdeclines : Declines (expression s) (lookedFor false) := by
    intro a
    rw [expression_eq]
    exact ((declines_quote hquote).orElse <| (declines_spread hspread).orElse <|
      (declines_group hlist).orElse <| (declines_group hblock).orElse (declines_words hscans)) a
  refine ⟨fun a hfresh => ?_, fun t ht => ⟨[], ?_, by simp⟩⟩
  · rw [hdeclines a]
    exact congrArg Reply.refused (Attempts.noteAll_fresh hfresh _ _)
  · rw [← ht]
    exact opens_leaf t

theorem breaksOff_spread {t : Text} (h : symbol? t = none) :
    BreaksOff ('.' :: '.' :: '.' :: t) t true := by
  have hlt : t.length < ('.' :: '.' :: '.' :: t).length := by
    simp only [List.length_cons]
    omega
  have hquote : Declines (quote ('.' :: '.' :: '.' :: t)) [.quote] := declines_quote (by simp)
  have hhalts := hquote.orElse_halts
    ((halts_spread h).orElse_declines hlt (declines_behind_spread t))
  refine ⟨fun a hfresh => ?_, fun v hv => ⟨[], opens_spread hv, ?_⟩⟩
  · rw [expression_eq]
    exact hhalts a hfresh.1
  · simpa using Nat.ne_of_lt hlt

theorem BreaksOff.quote {t u : Text} {behindPoints : Bool}
    (h : BreaksOff (skipTrivia t) u behindPoints) (hu : u.length ≤ t.length) :
    BreaksOff ('\'' :: t) u behindPoints := by
  have hlt : u.length < ('\'' :: t).length := Nat.lt_succ_of_le hu
  have hhalts := (halts_quote hlt h.refused).orElse_declines hlt (declines_behind_quote t)
  refine ⟨fun a hfresh => ?_, fun v hv => ?_⟩
  · rw [expression_eq]
    exact hhalts a hfresh.1
  · obtain ⟨opened, hopens, -⟩ := h.opens t rfl
    refine ⟨_, hopens.quote hv, ?_⟩
    simpa using Nat.ne_of_lt hlt

theorem BreaksOff.group {kind : Kind} {opening closing : Char} {t rest u : Text}
    {nodes : List Node} {behindPoints : Bool} (h : BreaksOff (skipTrivia rest) u behindPoints)
    (hkind : Brackets kind opening closing) (hreads : Reads t nodes rest)
    (hopen : ∀ r, skipTrivia rest ≠ closing :: r) (hu : u.length ≤ t.length) :
    BreaksOff (opening :: t) u behindPoints := by
  have hlt : u.length < (opening :: t).length := Nat.lt_succ_of_le hu
  have hrow : ∀ r, (readRow (skipTrivia t)).2 ≠ closing :: r := by
    rw [hreads.readRow, readRow_of_none h.readOne]
    exact hopen
  have hgroup : ∀ form, Halts (Script.group form kind opening closing (opening :: t))
      ⟨u.length, lookedFor behindPoints⟩ :=
    fun _ => halts_group hlt hrow fun _ => h.attempts_row hreads
  refine ⟨fun a hfresh => ?_, fun v hv => ?_⟩
  · rw [expression_eq]
    cases hkind with
    | list =>
      have hquote : Declines (Script.quote ('(' :: t)) [.quote] := declines_quote (by simp)
      have hspread : Declines (spread ('(' :: t)) [.spread] := declines_spread (by simp)
      exact hquote.orElse_halts (hspread.orElse_halts
        ((hgroup .list).orElse_declines hlt (declines_behind_list t))) a hfresh.1
    | block =>
      have hquote : Declines (Script.quote ('\x7b' :: t)) [.quote] := declines_quote (by simp)
      have hspread : Declines (spread ('\x7b' :: t)) [.spread] := declines_spread (by simp)
      have hlist : Declines (Script.group .list .list '(' ')' ('\x7b' :: t)) [.list] :=
        declines_group (by simp)
      have hwords := declines_words_of_opening (c := '\x7b') (by simp) t
      exact hquote.orElse_halts (hspread.orElse_halts (hlist.orElse_halts
        ((hgroup .block).orElse_declines hlt hwords))) a hfresh.1
  · obtain ⟨opened, hopens, -⟩ := h.opens rest rfl
    refine ⟨_, hopens.group hkind hv hreads, ?_⟩
    simpa using Nat.ne_of_lt hlt

theorem Stuck.breaksOff {s u : Text} (h : Stuck s u) :
    ∃ behindPoints, BreaksOff s u behindPoints := by
  induction h with
  | leaf hopens hleaf => exact ⟨false, breaksOff_leaf hopens hleaf⟩
  | spread hsymbol => exact ⟨true, breaksOff_spread hsymbol⟩
  | quote hstuck ih =>
    obtain ⟨behindPoints, hbreaks⟩ := ih
    have hu := Nat.le_trans hstuck.length_le (length_skipTrivia_le _)
    exact ⟨behindPoints, hbreaks.quote hu⟩
  | group hkind hreads hopen hstuck ih =>
    obtain ⟨behindPoints, hbreaks⟩ := ih
    have hu := Nat.le_trans (Nat.le_trans hstuck.length_le (length_skipTrivia_le _))
      (length_le_of_reads hreads)
    exact ⟨behindPoints, hbreaks.group hkind hreads hopen hu⟩

/-! ## Whole scripts -/

/-- What a reader is told at the byte `offset`, behind a text that breaks off like this. -/
def expectation (offset : Nat) (s : Standing) : String :=
  if offset = 0 then "expected program"
  else if s.behindPoints then "expected symbol"
  else if s.unclosed = [] then
    "expected EOI, list, block, quote, spread_arg, number, string, boolean, or symbol"
  else "expected list, block, quote, spread_arg, number, string, boolean, or symbol"

theorem message_program (left : Nat) :
    Attempts.message ⟨left, [.program]⟩ = "expected program" := by
  rfl

theorem message_lookedFor (left : Nat) (behindPoints : Bool) :
    Attempts.message ⟨left, lookedFor behindPoints⟩ =
      if behindPoints then "expected symbol"
      else "expected list, block, quote, spread_arg, number, string, boolean, or symbol" := by
  cases behindPoints <;> rfl

theorem message_endOfInput (left : Nat) :
    Attempts.message ⟨left, lookedFor false ++ [.endOfInput]⟩ =
      "expected EOI, list, block, quote, spread_arg, number, string, boolean, or symbol" := by
  rfl

/-- The message for an expression that gets stuck with `left` characters left, in a script of
`whole` characters. The expression begins with `front` characters left. -/
theorem message_note {left front whole offset : Nat} {opened : List Char} {behindPoints : Bool}
    (hfront : left ≤ front) (hwhole : front ≤ whole) (hoffset : offset = 0 ↔ left = whole)
    (hopened : opened = [] ∧ behindPoints = false ↔ left = front) :
    ((Attempts.note ⟨left, lookedFor behindPoints⟩ .endOfInput front
        ⟨left, lookedFor behindPoints⟩).note .program whole ⟨whole, []⟩).message =
      expectation offset ⟨opened, behindPoints⟩ := by
  rw [expectation]
  -- The end of the text is looked for where the expression begins, so it is listed only if that is
  -- the furthest place; and the same is true of the script.
  obtain rfl | hlt := Nat.eq_or_lt_of_le hfront
  · obtain ⟨rfl, rfl⟩ := hopened.mpr rfl
    rw [Attempts.note_here]
    obtain rfl | hlt := Nat.eq_or_lt_of_le hwhole
    · rw [Attempts.note_whole _ (by decide), if_pos (hoffset.mpr rfl), message_program]
    · rw [Attempts.note_behind hlt, if_neg (mt hoffset.mp (Nat.ne_of_lt hlt)), if_neg (by simp),
        if_pos rfl, message_endOfInput]
  · have hlt' := Nat.lt_of_lt_of_le hlt hwhole
    rw [Attempts.note_behind (a := ⟨left, lookedFor behindPoints⟩) hlt, Attempts.note_behind hlt',
      if_neg (mt hoffset.mp (Nat.ne_of_lt hlt')), message_lookedFor]
    cases behindPoints with
    | true => rfl
    | false =>
      have hne : opened ≠ [] := fun hnil => Nat.ne_of_lt hlt (hopened.mp ⟨hnil, rfl⟩)
      rw [if_neg (by simp), if_neg (by simp), if_neg hne]

theorem attempts_of_breaksOff {source rest u : Text} {nodes : List Node} {behindPoints : Bool}
    {a : Attempts} (hreads : Reads source nodes rest)
    (hbreaks : BreaksOff (skipTrivia rest) u behindPoints) (h : program source = .error a) :
    a = (Attempts.note ⟨u.length, lookedFor behindPoints⟩ .endOfInput (skipTrivia rest).length
      ⟨u.length, lookedFor behindPoints⟩).note .program source.length ⟨source.length, []⟩ := by
  have hread := congrArg Prod.snd (read_row_eq_readRow (skipTrivia source) (.start source))
  rw [hreads.readRow, readRow_of_none hbreaks.readOne] at hread
  have hrest : (row (skipTrivia source) (.start source)).rest = skipTrivia rest := hread
  have hattempts :=
    hbreaks.attempts_row hreads (Attempts.fresh_start (length_skipTrivia_le source))
  unfold program at h
  dsimp only at h
  split at h
  · cases h
  · rw [← Except.error.inj h, hattempts, hrest]
    rfl

theorem detail_of_refusal {path source : Text} {a : Attempts} {e : ParseError}
    (h : refusal path source a = e) : e.detail = a.message.toList := by
  rw [← h, refusal]
  split
  · rfl
  · rfl

theorem byteLength_eq_zero {t : Text} : Text.byteLength t = 0 ↔ t = [] := by
  cases t with
  | nil => simp [Text.byteLength]
  | cons c t =>
    have := c.utf8Size_pos
    simp only [Text.byteLength, reduceCtorEq, iff_false]
    omega

/-- The error of a refused script lists the script itself if it points at its front, and a symbol if
it points behind three points. Otherwise it lists every form of expression, and before these the
end of the text where no bracket and no quotation mark is open. -/
theorem parse_eq_error_detail {path source : Text} {e : ParseError}
    (h : parse path source = .error e) :
    ∃ before after, source = before ++ after ∧ e.offset = Text.byteLength before ∧
      e.detail = (expectation e.offset (standing [] before)).toList := by
  obtain ⟨a, hprogram, hrefusal⟩ := parse_eq_error_iff.mp h
  obtain ⟨nodes, rest, u, hreads, -, hstuck, hleft⟩ := program_eq_error hprogram
  obtain ⟨behindPoints, hbreaks⟩ := hstuck.breaksOff
  obtain ⟨opened, ⟨p, hp, hstanding⟩, hopened⟩ := hbreaks.opens rest rfl
  obtain ⟨q, hsource, hbefore⟩ := reads_before hreads fun _ _ _ _ => readOne_before
  have hends : endsWord rest → endsWord p := by
    intro hends
    rw [hp] at hends
    exact endsWord_of_append hends
  have hopen : standing [] (q ++ p) = ⟨opened, behindPoints⟩ := by
    rw [standing_reads (hbefore p hends) (fun _ _ _ _ => standing_readOne) rfl, hstanding,
      List.append_nil]
  have hsplit : source = q ++ p ++ u := by rw [hsource, hp, List.append_assoc]
  have hoffset : e.offset = Text.byteLength (q ++ p) := by
    rw [offset_of_refusal hrefusal, offsetOf, hleft, hsplit, take_append_length]
  refine ⟨q ++ p, u, hsplit, hoffset, ?_⟩
  have hwhole : (skipTrivia rest).length ≤ source.length :=
    Nat.le_trans (length_skipTrivia_le rest) (length_le_of_reads hreads)
  have hfront : e.offset = 0 ↔ u.length = source.length := by
    rw [hoffset, byteLength_eq_zero, hsplit, List.length_append, ← List.length_eq_zero_iff]
    omega
  rw [detail_of_refusal hrefusal, attempts_of_breaksOff hreads hbreaks hprogram, hopen,
    message_note hstuck.length_le hwhole hfront hopened]

/-- In a block in a quoted list, behind a string with a bracket in it, three points with no
symbol. -/
theorem parse_eq_error_detail_points :
    standing [] "'(a \")\" \x7bf ...".toList = ⟨['\x7b', '(', '\''], true⟩ ∧
      ∃ e, parse [] "'(a \")\" \x7bf ... x\x7d)".toList = .error e ∧
        e.detail = "expected symbol".toList ∧
        ∃ before after, "'(a \")\" \x7bf ... x\x7d)".toList = before ++ after ∧
          e.offset = Text.byteLength before ∧
          e.detail = (expectation e.offset (standing [] before)).toList := by
  have hprogram : program "'(a \")\" \x7bf ... x\x7d)".toList = .error ⟨4, [.symbol]⟩ := by
    decide +kernel
  have hparse : parse [] "'(a \")\" \x7bf ... x\x7d)".toList = .error (refusal [] _ _) :=
    parse_eq_error_iff.mpr ⟨_, hprogram, rfl⟩
  exact ⟨by decide +kernel, _, hparse, detail_of_refusal rfl, parse_eq_error_detail hparse⟩

end TokenCorpus.Script
