import TokenCorpus.Proofs.Vocabulary.Lines
import TokenCorpus.Proofs.Text.Bytes

/-!
Vocabularies with a greater minimum.

The entries of a vocabulary come in the order of their counts, and the order among equal counts does
not depend on the minimum asked for. So a greater minimum cuts entries off at the end and changes
nothing before them, in the vocabulary as in its file.
-/

namespace TokenCorpus

/-- Where a property can only be lost on the way along a list, its elements stand at the front. -/
theorem filter_eq_takeWhile {α : Type} {p : α → Bool} {l : List α}
    (h : l.Pairwise fun a b => p b → p a) : l.filter p = l.takeWhile p := by
  induction l with
  | nil => rfl
  | cons a l ih =>
    obtain ⟨hlater, hl⟩ := List.pairwise_cons.mp h
    rw [List.filter_cons, List.takeWhile_cons, ih hl]
    split
    · rfl
    · next hlost =>
      rw [← ih hl, List.filter_eq_nil_iff]
      exact fun b hb hheld => hlost (hlater b hb hheld)

theorem TokenCount.count_le_of_precedes {a b : TokenCount} (h : a.Precedes b) :
    b.count ≤ a.count := by
  obtain hlt | ⟨heq, -⟩ := h
  · exact Nat.le_of_lt hlt
  · exact Nat.le_of_eq heq.symm

/-- The file of the first entries of a vocabulary is the front of its file. -/
theorem Vocabulary.bytes_render_isPrefix {v more : Vocabulary} (h : v.entries <+: more.entries) :
    v.render.bytes <+: more.render.bytes := by
  obtain ⟨rest, hentries⟩ := h
  refine ⟨Text.bytes (rest.flatMap line).flatten, ?_⟩
  rw [render, render, ← hentries, List.flatMap_append, List.flatten_append, Text.bytes_append]

namespace TokenCounts

/-- A greater minimum keeps the entries before the first that it is too great for. -/
theorem vocabulary_eq_takeWhile {counts : TokenCounts} (h : counts.tokens.Nodup) {few many : Nat}
    (hle : few ≤ many) :
    (counts.vocabulary many).entries =
      (counts.vocabulary few).entries.takeWhile (many ≤ ·.count) := by
  have hordered := vocabulary_pairwise h few
  have hcounts : (counts.vocabulary few).entries.Pairwise fun a b =>
      decide (many ≤ b.count) → decide (many ≤ a.count) := by
    refine hordered.imp fun hprecedes hkept => ?_
    rw [decide_eq_true_iff] at hkept ⊢
    exact Nat.le_trans hkept (TokenCount.count_le_of_precedes hprecedes)
  rw [← filter_eq_takeWhile hcounts]
  refine (vocabulary_pairwise h many).eq_of_mem_iff (hordered.filter _) fun e => ?_
  rw [List.mem_filter, mem_vocabulary, mem_vocabulary, decide_eq_true_iff, and_assoc]
  constructor
  · rintro ⟨hmem, hmany⟩
    exact ⟨hmem, Nat.le_trans hle hmany, hmany⟩
  · rintro ⟨hmem, -, hmany⟩
    exact ⟨hmem, hmany⟩

/-- Raising the minimum count of a vocabulary takes entries away at its end only, and the same is
true of its file. -/
theorem vocabulary_truncated (tokens : List Text) {few many : Nat} (hle : few ≤ many) :
    ((empty.addAll tokens).vocabulary many).entries =
        ((empty.addAll tokens).vocabulary few).entries.takeWhile (many ≤ ·.count) ∧
      ((empty.addAll tokens).vocabulary many).entries <+:
        ((empty.addAll tokens).vocabulary few).entries ∧
      (transcript ((empty.addAll tokens).vocabulary many).write).bytes <+:
        (transcript ((empty.addAll tokens).vocabulary few).write).bytes := by
  have hcut := vocabulary_eq_takeWhile (nodup_tokens_empty_addAll tokens) hle
  have hentries : ((empty.addAll tokens).vocabulary many).entries <+:
      ((empty.addAll tokens).vocabulary few).entries := by
    rw [hcut]
    exact List.takeWhile_prefix _
  rw [Vocabulary.transcript_write, Vocabulary.transcript_write]
  exact ⟨hcut, hentries, Vocabulary.bytes_render_isPrefix hentries⟩

/-- Of two tokens seen once and one seen twice, a minimum of two leaves the last, whose line comes
first. -/
theorem vocabulary_truncated_ties :
    1 ≤ 2 ∧
      ((empty.addAll [['b'], ['c'], ['a'], ['c']]).vocabulary 2).entries <+:
        ((empty.addAll [['b'], ['c'], ['a'], ['c']]).vocabulary 1).entries ∧
      (transcript ((empty.addAll [['b'], ['c'], ['a'], ['c']]).vocabulary 2).write).bytes <+:
        (transcript ((empty.addAll [['b'], ['c'], ['a'], ['c']]).vocabulary 1).write).bytes ∧
      ((empty.addAll [['b'], ['c'], ['a'], ['c']]).vocabulary 2).entries = [⟨2, ['c']⟩] ∧
      ((empty.addAll [['b'], ['c'], ['a'], ['c']]).vocabulary 1).entries =
        [⟨2, ['c']⟩, ⟨1, ['a']⟩, ⟨1, ['b']⟩] ∧
      transcript ((empty.addAll [['b'], ['c'], ['a'], ['c']]).vocabulary 2).write =
        "2\tc\n".toList ∧
      transcript ((empty.addAll [['b'], ['c'], ['a'], ['c']]).vocabulary 1).write =
        "2\tc\n1\ta\n1\tb\n".toList := by
  have hle : 1 ≤ 2 := by decide
  obtain ⟨-, hentries, hfile⟩ := vocabulary_truncated [['b'], ['c'], ['a'], ['c']] hle
  exact ⟨hle, hentries, hfile, by decide +kernel, by decide +kernel, by decide +kernel,
    by decide +kernel⟩

end TokenCounts

end TokenCorpus
