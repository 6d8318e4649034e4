import TokenCorpus.Proofs.Vocabulary.Lines
import TokenCorpus.Proofs.Corpus.Counting

/-!
What a run counts.

Leaves can hold any text, but only the words of their tokens are counted. That is what makes the
vocabulary of a corpus readable line by line.
-/

namespace TokenCorpus

/-- Counts of words, and of nothing else. -/
def TokenCounts.OfWords (counts : TokenCounts) : Prop :=
  ∃ words, counts = empty.addAll words ∧ ∀ word ∈ words, Text.IsWord word

namespace TokenCounts

theorem ofWords_empty : empty.OfWords := ⟨[], rfl, fun _ hword => by cases hword⟩

theorem OfWords.addAll {counts : TokenCounts} (h : counts.OfWords) {words : List Text}
    (hwords : ∀ word ∈ words, Text.IsWord word) : (counts.addAll words).OfWords := by
  obtain ⟨before, rfl, hbefore⟩ := h
  refine ⟨before ++ words, (addAll_append _ _ _).symm, fun word hword => ?_⟩
  obtain hword | hword := List.mem_append.mp hword
  · exact hbefore word hword
  · exact hwords word hword

/-- Counted words have been seen at least once. -/
theorem OfWords.of_mem {counts : TokenCounts} (h : counts.OfWords) {e : TokenCount}
    (he : e ∈ counts.entries) : e.token.IsWord ∧ 0 < e.count := by
  obtain ⟨words, rfl, hwords⟩ := h
  obtain ⟨hmem, hcount⟩ := (mem_entries_empty_addAll words).mp he
  refine ⟨hwords _ hmem, ?_⟩
  rw [hcount]
  exact List.count_pos_iff.mpr hmem

end TokenCounts

namespace Run

variable {base : FileSystem} {miner : Miner} {job : Job} {run next : Run base}

theorem ofWords_countTokens {counts : TokenCounts} (h : counts.OfWords) (encoding : EncodingConfig)
    (tree : Node) : (countTokens counts encoding tree).OfWords := by
  rw [countTokens_eq]
  refine h.addAll fun word hword => ?_
  obtain ⟨token, -, hword⟩ := List.mem_flatMap.mp hword
  exact Text.isWord_of_mem_words hword

theorem ofWords_settle {options : BuildOptions} {path : Text} {verdict : Verdict}
    (hrun : run.counts.OfWords) (h : run.settle options job path verdict = .ok next) :
    next.counts.OfWords := by
  cases verdict with
  | directory => cases h; exact hrun
  | otherExtension => cases h; exact hrun
  | unparsable => cases h; exact hrun
  | accepted tree =>
    cases job with
    | tally => cases h; exact ofWords_countTokens hrun options.encoding tree
    | dump output =>
      obtain ⟨_, -, -, -, hcounts, -⟩ := writeDocument_eq_ok h
      rw [hcounts]
      exact hrun

theorem ofWords_take {stop : Stop} (hrun : run.counts.OfWords)
    (h : run.take miner job stop = .ok next) : next.counts.OfWords := by
  obtain ⟨verdict, -, hsettle⟩ := take_eq_ok h
  have hvisit : run.visit.counts.OfWords := hrun
  exact ofWords_settle hvisit hsettle

theorem ofWords_foldlM_take {stops : List Stop} (hrun : run.counts.OfWords)
    (h : stops.foldlM (take miner job) run = .ok next) : next.counts.OfWords :=
  foldlM_keeps (fun _ _ _ _ hrun h => ofWords_take hrun h) hrun h

end Run

namespace Miner

variable {miner : Miner} {fs : FileSystem} {input : Text} {counts : TokenCounts}
  {report : BuildReport}

theorem ofWords_counts (h : (miner.countTokens fs input).result = .ok (counts, report)) :
    counts.OfWords := by
  obtain ⟨stops, last, -, hfold, -, rfl, -⟩ := countTokens_eq_ok h
  exact Run.ofWords_foldlM_take TokenCounts.ofWords_empty hfold

/-- The vocabulary of whatever a count has found can be read from its file: one line for each entry
and nothing behind the last, in each line one tab, the count before it and the token after it. -/
theorem countTokens_vocabulary_lines
    (h : (miner.countTokens fs input).result = .ok (counts, report)) (minCount : Nat) :
    (∃ lines, (transcript (counts.vocabulary minCount).write).splitOn '\n' = lines ++ [[]] ∧
      List.Forall₂ (fun e line => line.count '\t' = 1 ∧ TokenCount.ofLine? line = some e)
        (counts.vocabulary minCount).entries lines) ∧
    ∀ e ∈ (counts.vocabulary minCount).entries, e.token ≠ [] ∧ 0 < e.count := by
  have hentries : ∀ e ∈ (counts.vocabulary minCount).entries, e.token.IsWord ∧ 0 < e.count :=
    fun e he => (ofWords_counts h).of_mem (TokenCounts.mem_vocabulary.mp he).1
  rw [Vocabulary.transcript_write]
  refine ⟨Vocabulary.lines_render fun e he => (hentries e he).1, fun e he => ?_⟩
  obtain ⟨⟨hne, -⟩, hpos⟩ := hentries e he
  exact ⟨hne, hpos⟩

/-- A project whose script has a string with a tab, a line end and a blank line in it. -/
def raggedProject : FileSystem :=
  projectOf [(firstScript, .file (Text.bytes "(say \"a\tb\n\nb c\")".toList))] (by decide)

/-- The string is counted by its words, although the file is made of lines and tabs itself. -/
theorem countTokens_vocabulary_lines_raggedProject :
    ∃ counts report,
      ((ofScripts {}).countTokens raggedProject "in".toList).result = .ok (counts, report) ∧
      (counts.vocabulary 1).render = "2\tb\n1\t\"a\n1\tc\"\n1\tsay\n".toList ∧
      (∃ lines, (transcript (counts.vocabulary 1).write).splitOn '\n' = lines ++ [[]] ∧
        List.Forall₂ (fun e line => line.count '\t' = 1 ∧ TokenCount.ofLine? line = some e)
          (counts.vocabulary 1).entries lines) ∧
      ∀ e ∈ (counts.vocabulary 1).entries, e.token ≠ [] ∧ 0 < e.count := by
  have hrender : ((((ofScripts {}).countTokens raggedProject "in".toList).result.toOption.map
      fun (counts, _) => (counts.vocabulary 1).render)) =
        some "2\tb\n1\t\"a\n1\tc\"\n1\tsay\n".toList := by
    decide +kernel
  cases hresult : ((ofScripts {}).countTokens raggedProject "in".toList).result with
  | error e =>
    rw [hresult] at hrender
    cases hrender
  | ok found =>
    obtain ⟨counts, report⟩ := found
    rw [hresult] at hrender
    obtain ⟨hlines, hentries⟩ := countTokens_vocabulary_lines hresult 1
    exact ⟨counts, report, rfl, Option.some.inj hrender, hlines, hentries⟩

end Miner

end TokenCorpus
