import TokenCorpus.Proofs.Script.Refusal

/-!
Scripts one after the other.

A script with a line end behind it may be put before any text. If the text is a script, the forms of
both make one script. If it is not, the error is the one of the text, moved by what stands before it:
what was tried at the end of the first script was tried no further than where the text begins.
-/

namespace TokenCorpus.Script

/-- Whatever a script ends with, a line end takes the text after it out of its last word and of its
last comment. -/
theorem skipTrivia_line {rest : Text} (h : FinalTrivia rest) (t : Text) :
    skipTrivia (rest ++ '\n' :: t) = skipTrivia t ∧ endsWord (rest ++ '\n' :: t) := by
  have htext : rest ++ '\n' :: t = rest ++ ['\n'] ++ t := by simp
  rw [htext]
  exact ⟨h.append_line.skip t, h.append_line.endsWord (by simp) t⟩

/-- The forms of a script are still read where a line end and another text come behind it, and they
leave that text. -/
theorem reads_before_line {a : Text} {nodes : List Node}
    (h : program a = .ok (.composite .program nodes)) (b : Text) :
    ∃ rest, Reads (a ++ '\n' :: b) nodes rest ∧ skipTrivia rest = skipTrivia b := by
  obtain ⟨hnil, hnodes⟩ := program_eq_ok_iff.mp h
  obtain ⟨-, rfl⟩ := Node.composite.inj hnodes
  obtain ⟨rest, hreads, hrest⟩ := exists_reads a
  obtain ⟨q, hsplit, hbefore⟩ := reads_before hreads fun _ _ _ _ => readOne_before
  have hfinal : FinalTrivia rest := finalTrivia_iff.mpr (hrest.symm.trans hnil)
  obtain ⟨hskip, hends⟩ := skipTrivia_line hfinal b
  have htext : a ++ '\n' :: b = q ++ (rest ++ '\n' :: b) := by rw [hsplit, List.append_assoc]
  refine ⟨rest ++ '\n' :: b, ?_, hskip⟩
  rw [htext]
  exact hbefore _ fun _ => hends

section

variable {a b : Text} {nodes : List Node}

theorem program_append_line (ha : program a = .ok (.composite .program nodes)) {more : List Node}
    (hb : program b = .ok (.composite .program more)) :
    program (a ++ '\n' :: b) = .ok (.composite .program (nodes ++ more)) := by
  obtain ⟨rest, hreads, hskip⟩ := reads_before_line ha b
  obtain ⟨hnil, hnodes⟩ := program_eq_ok_iff.mp hb
  obtain ⟨-, rfl⟩ := Node.composite.inj hnodes
  rw [program_eq_ok_iff, hreads.readRow, hskip]
  exact ⟨hnil, rfl⟩

/-- A text that is no script is none behind a script either, and the parser comes as far in it. -/
theorem program_append_line_error (ha : program a = .ok (.composite .program nodes)) {failed : Attempts}
    (hb : program b = .error failed) :
    ∃ failed', program (a ++ '\n' :: b) = .error failed' ∧ failed'.left = failed.left ∧
      failed.left ≤ b.length := by
  obtain ⟨rest, hreads, hskip⟩ := reads_before_line ha b
  obtain ⟨u, hstuck, hreaches⟩ := (readOrStuck_and_rowStuck (skipTrivia b)).2
  have hrow : (readRow (skipTrivia (a ++ '\n' :: b))).2 = (readRow (skipTrivia b)).2 := by
    rw [hreads.readRow, hskip]
  have hleft := left_of_program_eq_error hreaches hstuck.length_le hb
  have hwhole : RowReaches (skipTrivia (a ++ '\n' :: b)) u :=
    hreads.rowReaches (by rw [hskip]; exact hreaches)
  cases hprogram : program (a ++ '\n' :: b) with
  | ok tree =>
    have hnil := (program_eq_ok_iff.mp hprogram).1
    rw [program_eq_ok_iff.mpr ⟨hrow.symm.trans hnil, rfl⟩] at hb
    cases hb
  | error failed' =>
    have hleft' := left_of_program_eq_error hwhole (by rw [hrow]; exact hstuck.length_le) hprogram
    refine ⟨failed', rfl, hleft'.trans hleft.symm, ?_⟩
    have hrest : (readRow (skipTrivia b)).2.length ≤ (skipTrivia b).length := (row _ _).le
    have := hstuck.length_le
    have := length_skipTrivia_le b
    omega

end

theorem offsetOf_append_line (a b : Text) {left : Nat} (h : left ≤ b.length) :
    offsetOf (a ++ '\n' :: b) left = Text.byteLength a + 1 + offsetOf b left := by
  have hlength : (a ++ '\n' :: b).length - left = (a ++ ['\n']).length + (b.length - left) := by
    simp only [List.length_append, List.length_cons, List.length_nil]
    omega
  have htext : a ++ '\n' :: b = a ++ ['\n'] ++ b := by simp
  rw [offsetOf, offsetOf, hlength, htext, List.take_length_add_append, byteLength_append,
    byteLength_append]
  rfl

/-- The advice of an error hangs on what stands behind its place. -/
theorem help_of_refusal (path source : Text) (a : Attempts) :
    (refusal path source a).help =
      if Text.byteLength source ≤ offsetOf source a.left then some endedEarly.toList else none := by
  rw [refusal]
  split
  · rfl
  · rfl

/-- A script, a line end and another script make the script of the forms of both. Behind a script, a
text that is none is refused where it is refused alone, with the same advice. -/
theorem parse_append_line {path a : Text} {nodes : List Node}
    (ha : parse path a = .ok (.composite .program nodes)) (b : Text) :
    (∀ more, parse path b = .ok (.composite .program more) →
        parse path (a ++ '\n' :: b) = .ok (.composite .program (nodes ++ more))) ∧
      ∀ e, parse path b = .error e →
        ∃ e', parse path (a ++ '\n' :: b) = .error e' ∧
          e'.offset = Text.byteLength a + 1 + e.offset ∧ e'.help = e.help := by
  have hprogram := parse_eq_ok_iff_program.mp ha
  refine ⟨fun more hb => ?_, fun e hb => ?_⟩
  · exact parse_eq_ok_iff_program.mpr (program_append_line hprogram (parse_eq_ok_iff_program.mp hb))
  · obtain ⟨failed, hfailed, rfl⟩ := parse_eq_error_iff.mp hb
    obtain ⟨failed', hwhole, hleft, hle⟩ := program_append_line_error hprogram hfailed
    have hoffset : offsetOf (a ++ '\n' :: b) failed'.left =
        Text.byteLength a + 1 + offsetOf b failed.left := by
      rw [hleft]
      exact offsetOf_append_line a b hle
    have hlength : Text.byteLength (a ++ '\n' :: b) =
        Text.byteLength a + 1 + Text.byteLength b := by
      rw [byteLength_append, Text.byteLength, Nat.add_assoc]
      rfl
    refine ⟨_, parse_eq_error_iff.mpr ⟨failed', hwhole, rfl⟩, ?_, ?_⟩
    · rw [offset_of_refusal rfl, offset_of_refusal rfl, hoffset]
    · rw [help_of_refusal, help_of_refusal, hoffset, hlength]
      simp only [Nat.add_le_add_iff_left]

/-- Behind a comment with a letter of two bytes, a list and an unclosed one. -/
theorem parse_append_line_unclosed :
    parse [] "x ; é".toList = .ok (.composite .program [.identifier "x".toList]) ∧
      parse [] "x ; é\n(y)".toList = .ok (.composite .program
        [.identifier "x".toList, .composite .list [.identifier "y".toList]]) ∧
      ∃ e, parse [] "x ; é\n'(y".toList = .error e ∧ e.offset = 10 ∧
        e.help = some endedEarly.toList := by
  have ha : parse [] "x ; é".toList = .ok (.composite .program [.identifier "x".toList]) := by
    decide +kernel
  have hclosed : parse [] "(y)".toList =
      .ok (.composite .program [.composite .list [.identifier "y".toList]]) := by
    decide +kernel
  have hopen : program "'(y".toList =
      .error ⟨0, [.quote, .spread, .list, .block, .number, .string, .boolean, .symbol]⟩ := by
    decide +kernel
  have hrefused : parse [] "'(y".toList = .error (refusal [] "'(y".toList _) :=
    parse_eq_error_iff.mpr ⟨_, hopen, rfl⟩
  obtain ⟨e, he, hoffset, hhelp⟩ := (parse_append_line ha "'(y".toList).2 _ hrefused
  refine ⟨ha, (parse_append_line ha "(y)".toList).1 _ hclosed, e, he, ?_, ?_⟩
  · rw [hoffset, offset_of_refusal rfl]
    decide +kernel
  · rw [hhelp, help_of_refusal]
    exact if_pos (by decide +kernel)

end TokenCorpus.Script
