import TokenCorpus.Proofs.FileSystem.Writing
import TokenCorpus.Proofs.Corpus.Tallies
import TokenCorpus.Proofs.Corpus.Outcomes
import TokenCorpus.Proofs.CommandLine.Performing

/-!
What a vocabulary command leaves behind.

Counting only reads. The vocabulary file is opened when all counts are there, so a command that
cannot count, or cannot open the file, changes nothing; and the file may well be one of the scripts
that have been counted.
-/

namespace TokenCorpus

open FileSystem (GrowsBy FileIn)

/-! ## Counting -/

/-- The words of the tokens of a stop. Only scripts have some. -/
def Miner.wordsAt (miner : Miner) (fs : FileSystem) (stop : Stop) : List Text :=
  match miner.judge fs stop with
  | .ok (.accepted tree) => (tree.tokenList miner.options.encoding).flatMap Text.words
  | _ => []

namespace Run

variable {base : FileSystem} {miner : Miner} {run next last : Run base} {stops : List Stop}

theorem writesIn_tally : Job.WritesIn base (fun _ => False) .tally := trivial

theorem fs_foldlM_tally (hrun : run.fs = base)
    (h : stops.foldlM (take miner .tally) run = .ok last) :
    last.fs = base := by
  have hstart : run.Grown fun _ => False := by
    rw [Grown, hrun]
    exact GrowsBy.refl base
  have hgrown : last.Grown fun _ => False := grown_foldlM_take writesIn_tally hstart h
  refine hgrown.eq_of_not ?_
  rintro _ _ ⟨_, _, _, hin, -⟩
  exact hin

theorem fs_all_tally {input : Text} {failure : Failure base} (hrun : run.fs = base)
    (h : run.all miner .tally input = .error failure) : failure.run.fs = base := by
  cases hstops : base.itinerary input with
  | error e =>
    rw [all_eq_of_error run hrun hstops] at h
    cases h
    exact hrun
  | ok stops =>
    rw [all_eq writesIn_tally hstops (fun _ _ _ _ => id) run hrun] at h
    obtain ⟨before, stop, rest, reached, -, hreached, hfail⟩ := foldlM_eq_error h
    rw [(take_eq_error hfail).1]
    have hfs : reached.fs = base := fs_foldlM_tally hrun hreached
    exact hfs

theorem counts_take_tally {stop : Stop} (h : run.take miner .tally stop = .ok next) :
    next.counts = run.counts.addAll (miner.wordsAt run.fs stop) := by
  obtain ⟨verdict, hjudge, hsettle⟩ := take_eq_ok h
  rw [Miner.wordsAt, hjudge]
  cases verdict with
  | directory => cases hsettle; rfl
  | otherExtension => cases hsettle; rfl
  | unparsable => cases hsettle; rfl
  | accepted tree =>
    cases hsettle
    exact countTokens_eq run.counts miner.options.encoding tree

/-- A count adds up the words of all stops. -/
theorem counts_foldlM_tally (hrun : run.fs = base)
    (h : stops.foldlM (take miner .tally) run = .ok last) :
    last.counts = run.counts.addAll (stops.flatMap (miner.wordsAt base)) := by
  induction stops generalizing run with
  | nil =>
    cases h
    rfl
  | cons stop stops ih =>
    obtain ⟨next, htake, h⟩ := exists_of_foldlM_cons h
    have hnext : next.fs = base :=
      fs_foldlM_tally hrun ((foldlM_take_single run stop).trans htake)
    rw [ih hnext h, counts_take_tally htake, hrun, List.flatMap_cons, TokenCounts.addAll_append]

end Run

namespace Miner

/-- Counting changes nothing, whatever it ends with. -/
theorem countTokens_fs (miner : Miner) (fs : FileSystem) (input : Text) :
    (miner.countTokens fs input).fs = fs := by
  rw [countTokens]
  split
  · next failure hall => exact Run.fs_all_tally rfl hall
  · next last hall =>
    obtain ⟨stops, -, hfold⟩ := Run.all_eq_ok Run.writesIn_tally (fun _ _ _ _ _ _ => id) rfl hall
    exact Run.fs_foldlM_tally rfl hfold

theorem counts_of_countTokens {miner : Miner} {fs : FileSystem} {input : Text}
    {counts : TokenCounts} {report : BuildReport}
    (h : (miner.countTokens fs input).result = .ok (counts, report)) :
    ∃ stops, fs.itinerary input = .ok stops ∧
      counts = TokenCounts.empty.addAll (stops.flatMap (miner.wordsAt fs)) := by
  obtain ⟨stops, last, hstops, hfold, -, rfl, -⟩ := countTokens_eq_ok h
  exact ⟨stops, hstops, Run.counts_foldlM_tally rfl hfold⟩

end Miner

/-! ## The command -/

namespace VocabularyCommand

/-- How the command treats files. -/
def miner (c : VocabularyCommand) : Miner := .ofCommand c.encoding c.extension

/-- What the command writes when it has found these counts. -/
def content (c : VocabularyCommand) (counts : TokenCounts) : Bytes :=
  (counts.vocabulary c.minCount).render.bytes

/-- The command has changed one file, or nothing because it could not. The counts are those of the
input as it was found. -/
structure ChangesOneFile (c : VocabularyCommand) (fs : FileSystem) (after : Aftermath) : Prop where
  uncounted : ∀ cause, (c.miner.countTokens fs c.input).result = .error cause →
    ∃ e, cause = .raised e ∧ after.ending = .failed (.run e) ∧ after.fs = fs
  unopened : ∀ counts report e, (c.miner.countTokens fs c.input).result = .ok (counts, report) →
    fs.write c.output (c.content counts) = .error e →
    after.ending = .failed (.vocabulary c.output e) ∧ after.fs = fs
  done : after.ending.status = 0 → ∃ counts report stops location,
    (c.miner.countTokens fs c.input).result = .ok (counts, report) ∧
    fs.itinerary c.input = .ok stops ∧
    counts = TokenCounts.empty.addAll (stops.flatMap (c.miner.wordsAt fs)) ∧
    fs.Rewritten after.fs c.output (c.content counts) location

theorem perform_of_uncounted {c : VocabularyCommand} {fs : FileSystem} {cause : Abort BuildError}
    (h : (c.miner.countTokens fs c.input).result = .error cause) :
    ∃ e, cause = .raised e ∧ (c.perform fs).result = .error (.raised (.run e)) ∧
      (c.perform fs).fs = fs := by
  have hfs := c.miner.countTokens_fs fs c.input
  cases cause with
  | panic => exact absurd h (c.miner.countTokens_ne_panic fs c.input)
  | raised e =>
    rw [miner] at h hfs
    refine ⟨e, rfl, ?_⟩
    simp only [perform, Miner.ofScripts_eq_ofCommand, h, hfs, Abort.map, and_self]

theorem perform_of_counted {c : VocabularyCommand} {fs : FileSystem} {counts : TokenCounts}
    {report : BuildReport} (h : (c.miner.countTokens fs c.input).result = .ok (counts, report)) :
    (∀ e, fs.write c.output (c.content counts) = .error e →
      (c.perform fs).result = .error (.raised (.vocabulary c.output e)) ∧
        (c.perform fs).fs = fs) ∧
    ∀ made, fs.write c.output (c.content counts) = .ok made →
      (∃ summary, (c.perform fs).result = .ok summary) ∧ (c.perform fs).fs = made := by
  have hfs := c.miner.countTokens_fs fs c.input
  rw [miner] at h hfs
  simp only [content]
  constructor
  · intro e hwrite
    simp only [perform, Miner.ofScripts_eq_ofCommand, h, hfs, hwrite, and_self]
  · intro made hwrite
    simp only [perform, Miner.ofScripts_eq_ofCommand, h, hfs, hwrite, and_true]
    exact ⟨_, rfl⟩

end VocabularyCommand

namespace Program

/-- A vocabulary command changes the file system only where it succeeds, and then only the file that
the output path leads to. That file may be anywhere, also among the scripts. -/
theorem run_vocabulary {arguments : List Text} {c : VocabularyCommand} {verbosity : Nat}
    {quiet : Bool} (h : Invocation.ofArguments arguments = .ok ⟨.vocabulary c, verbosity, quiet⟩)
    (fs : FileSystem) (console : Console) (coloured : Bool) :
    c.ChangesOneFile fs (run arguments fs console coloured) := by
  obtain ⟨hfs, hfailed, hdone⟩ := run_of_command h fs console coloured
  simp only [Command.perform] at hfs hfailed hdone
  refine ⟨fun cause hcount => ?_, fun counts report e hcount hwrite => ?_, fun hstatus => ?_⟩
  · obtain ⟨e, hcause, hresult, hsame⟩ := VocabularyCommand.perform_of_uncounted hcount
    exact ⟨e, hcause, hfailed _ hresult, hfs.trans hsame⟩
  · obtain ⟨hresult, hsame⟩ := (VocabularyCommand.perform_of_counted hcount).1 e hwrite
    exact ⟨hfailed _ hresult, hfs.trans hsame⟩
  · obtain ⟨summary, hresult⟩ := hdone hstatus
    cases hcount : (c.miner.countTokens fs c.input).result with
    | error cause =>
      obtain ⟨e, -, hfails, -⟩ := VocabularyCommand.perform_of_uncounted hcount
      rw [hfails] at hresult
      cases hresult
    | ok found =>
      obtain ⟨counts, report⟩ := found
      obtain ⟨hrefused, hmade⟩ := VocabularyCommand.perform_of_counted hcount
      obtain ⟨stops, hstops, hcounts⟩ := Miner.counts_of_countTokens hcount
      cases hwrite : fs.write c.output (c.content counts) with
      | error e =>
        rw [(hrefused e hwrite).1] at hresult
        cases hresult
      | ok made =>
        obtain ⟨location, hrewritten⟩ := FileSystem.rewritten_of_write hwrite
        rw [← (hmade made hwrite).2, ← hfs] at hrewritten
        exact ⟨counts, report, stops, location, rfl, hstops, hcounts, hrewritten⟩

/-- A project with one script, in which a word comes twice. -/
def repeatingProject : FileSystem :=
  Miner.projectOf [(Miner.firstScript, .file (Text.bytes "(x y x)".toList))] (by decide)

def overwritingArguments : List Text := ["vocab", "in", "-o", "in/p/a.sutra"].map String.toList

def overwritingCommand : VocabularyCommand :=
  ⟨"in".toList, "in/p/a.sutra".toList, {}, "sutra".toList, Vocabulary.defaultMinCount⟩

/-- The vocabulary may replace the script that it has been counted from. -/
theorem run_vocabulary_overwriting :
    Invocation.ofArguments overwritingArguments =
        .ok ⟨.vocabulary overwritingCommand, 0, false⟩ ∧
      (run overwritingArguments repeatingProject {} false).ending.status = 0 ∧
      (run overwritingArguments repeatingProject {} false).fs.read "in/p/a.sutra".toList =
        .ok (Text.bytes "2\tx\n".toList) ∧
      overwritingCommand.ChangesOneFile repeatingProject
        (run overwritingArguments repeatingProject {} false) := by
  have harguments : Invocation.ofArguments overwritingArguments =
      .ok ⟨.vocabulary overwritingCommand, 0, false⟩ := by
    decide +kernel
  exact ⟨harguments, by decide +kernel, by decide +kernel,
    run_vocabulary harguments repeatingProject {} false⟩

end Program

end TokenCorpus
