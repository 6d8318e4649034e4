import Mathlib.Data.List.Forall2
import TokenCorpus.Proofs.Encoding.Pieces
import TokenCorpus.Proofs.Text.Words
import TokenCorpus.Proofs.Vocabulary.Canonical

/-!
Reading the lines of a vocabulary file.

Tokens are written as they are, so a file can be read back only because no token holds a tab or a line
end. Tokens that are words hold neither.
-/

namespace TokenCorpus

theorem Text.decimal?_ofNat (n : Nat) : decimal? (ofNat n) = some n := by
  have hne : ofNat n ≠ [] := List.length_pos_iff.mp Nat.length_toDigits_pos
  have hdigits : (ofNat n).all Char.isDigit := by
    rw [List.all_eq_true]
    exact fun c hc => Nat.isDigit_of_mem_toDigits (by decide) (by decide) hc
  rw [decimal?, if_pos ⟨hne, hdigits⟩]
  exact congrArg some Nat.ofDigitChars_ten_toDigits

theorem Text.not_mem_ofNat {c : Char} (h : ¬ c.isDigit) (n : Nat) : c ∉ ofNat n :=
  fun hc => h (Nat.isDigit_of_mem_toDigits (by decide) (by decide) hc)

theorem Text.IsWord.not_mem {word : Text} (h : word.IsWord) {c : Char} (hc : isBlank c) :
    c ∉ word := by
  intro hmem
  rw [h.2 c hmem] at hc
  cases hc

namespace TokenCount

/-- The line of an entry, without its end. -/
def lineText (e : TokenCount) : Text := Text.ofNat e.count ++ '\t' :: e.token

/-- The entry that a line tells of: the number before its tab and the text after it. A line with no
tab or with several tells of none. -/
def ofLine? (line : Text) : Option TokenCount :=
  match line.splitOn '\t' with
  | [count, token] => (Text.decimal? count).map (⟨·, token⟩)
  | _ => none

theorem ofLine?_lineText {e : TokenCount} (h : '\t' ∉ e.token) : ofLine? e.lineText = some e := by
  have hline : e.lineText = ['\t'].intercalate [Text.ofNat e.count, e.token] := by
    rw [List.intercalate_cons_cons, List.intercalate_singleton, List.append_assoc]
    rfl
  have hsplit : e.lineText.splitOn '\t' = [Text.ofNat e.count, e.token] := by
    rw [hline]
    refine List.splitOn_intercalate '\t' ?_ (by simp)
    rw [List.forall_mem_cons, List.forall_mem_singleton]
    exact ⟨Text.not_mem_ofNat (by decide) _, h⟩
  rw [ofLine?, hsplit]
  simp only [Text.decimal?_ofNat, Option.map_some]

theorem count_tab_lineText {e : TokenCount} (h : '\t' ∉ e.token) : e.lineText.count '\t' = 1 := by
  have hnumber : '\t' ∉ Text.ofNat e.count := Text.not_mem_ofNat (by decide) _
  rw [lineText, List.count_append, List.count_cons_self, List.count_eq_zero.mpr hnumber,
    List.count_eq_zero.mpr h]

theorem newline_not_mem_lineText {e : TokenCount} (h : '\n' ∉ e.token) : '\n' ∉ e.lineText := by
  have hnumber : '\n' ∉ Text.ofNat e.count := Text.not_mem_ofNat (by decide) _
  rw [lineText, List.mem_append, List.mem_cons, not_or, not_or]
  exact ⟨hnumber, by decide, h⟩

end TokenCount

namespace Vocabulary

/-- Writing a vocabulary is writing the pieces of its lines. -/
theorem write_eq_forM {m : Type → Type} [Monad m] [LawfulMonad m] (v : Vocabulary)
    (put : Text → m Unit) : v.write put = forM (v.entries.flatMap line) put := by
  rw [write]
  induction v.entries with
  | nil => rfl
  | cons e entries ih =>
    rw [List.forM_eq_forM, List.forM_cons, List.flatMap_cons, List.forM_append, ← ih]
    rfl

/-- What a writer is handed is the text of the file. -/
theorem transcript_write (v : Vocabulary) : transcript v.write = v.render := by
  rw [transcript, write_eq_forM, run_forM_push, List.append_nil, List.reverse_reverse, render]

/-- Each line ends in a line end, so an empty text is left behind the last. -/
theorem render_eq_intercalate (v : Vocabulary) :
    v.render = ['\n'].intercalate (v.entries.map TokenCount.lineText ++ [[]]) := by
  rw [render]
  induction v.entries with
  | nil => rfl
  | cons e entries ih =>
    have hne : entries.map TokenCount.lineText ++ [[]] ≠ [] := by simp
    obtain ⟨next, rest, hrest⟩ := List.exists_cons_of_ne_nil hne
    rw [List.flatMap_cons, List.flatten_append, ih, List.map_cons, List.cons_append, hrest,
      List.intercalate_cons_cons]
    simp [line, TokenCount.lineText]

theorem splitOn_render {v : Vocabulary} (h : ∀ e ∈ v.entries, '\n' ∉ e.token) :
    v.render.splitOn '\n' = v.entries.map TokenCount.lineText ++ [[]] := by
  rw [render_eq_intercalate]
  refine List.splitOn_intercalate '\n' ?_ (by simp)
  intro line hline
  obtain hline | hline := List.mem_append.mp hline
  · obtain ⟨e, he, rfl⟩ := List.mem_map.mp hline
    exact TokenCount.newline_not_mem_lineText (h e he)
  · rw [List.mem_singleton.mp hline]
    exact List.not_mem_nil

/-- A file of words has one line for each entry, from which the entry can be read. -/
theorem lines_render {v : Vocabulary} (h : ∀ e ∈ v.entries, e.token.IsWord) :
    ∃ lines, v.render.splitOn '\n' = lines ++ [[]] ∧
      List.Forall₂ (fun e line => line.count '\t' = 1 ∧ TokenCount.ofLine? line = some e) v.entries
        lines := by
  have hnot : ∀ c, Text.isBlank c → ∀ e ∈ v.entries, c ∉ e.token :=
    fun c hc e he => (h e he).not_mem hc
  refine ⟨_, splitOn_render (hnot '\n' (by decide)), ?_⟩
  rw [List.forall₂_map_right_iff, List.forall₂_same]
  intro e he
  have htab := hnot '\t' (by decide) e he
  exact ⟨TokenCount.count_tab_lineText htab, TokenCount.ofLine?_lineText htab⟩

end Vocabulary

end TokenCorpus
