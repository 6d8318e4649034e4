import TokenCorpus.Proofs.Text.Bytes
import TokenCorpus.Proofs.FileSystem.Writing
import TokenCorpus.Proofs.Corpus.Manifest
import TokenCorpus.Proofs.Corpus.Delivery
import TokenCorpus.Proofs.CommandLine.Performing

/-!
What a dump command leaves behind.

The build leaves a document for each script, as its report says. The manifest is written after that,
wherever its path leads, and replaces a document if it leads there.
-/

namespace TokenCorpus

namespace DumpCommand

/-- How the command treats files. -/
def miner (c : DumpCommand) : Miner := .ofCommand c.encoding c.extension

/-- The manifest of the command is written where the path leads. -/
def Overwrites (c : DumpCommand) (fs : FileSystem) (path : Text) : Prop :=
  ∃ manifest, c.manifest = some manifest ∧ fs.Meet manifest path

/-- The command has written its manifest, if it has one, after the build. -/
def Concludes (c : DumpCommand) (report : BuildReport) (built after : FileSystem) : Prop :=
  c.manifest = none ∧ after = built ∨
    ∃ manifest, c.manifest = some manifest ∧ built.write manifest report.manifest.bytes = .ok after

theorem perform_eq_ok {c : DumpCommand} {fs : FileSystem} {summary : List Stretch}
    (h : (c.perform fs).result = .ok summary) :
    ∃ report, (c.miner.build fs c.input c.output).result = .ok report ∧
      c.Concludes report (c.miner.build fs c.input c.output).fs (c.perform fs).fs := by
  rw [miner]
  simp only [perform, Miner.ofScripts_eq_ofCommand] at h ⊢
  cases hresult : ((Miner.ofCommand c.encoding c.extension).build fs c.input c.output).result with
  | error e =>
    rw [hresult] at h
    cases h
  | ok report =>
    refine ⟨report, rfl, ?_⟩
    simp only [hresult] at h
    cases hmanifest : c.manifest with
    | none => exact Or.inl ⟨hmanifest, rfl⟩
    | some manifest =>
      rw [hmanifest] at h
      simp only at h ⊢
      split at h
      · cases h
      · next made hwrite =>
        exact Or.inr ⟨manifest, hmanifest, by simp only [hwrite]⟩

/-- A document is replaced by the manifest or is left as it was. -/
theorem read_of_concludes {c : DumpCommand} {report : BuildReport} {built after : FileSystem}
    (h : c.Concludes report built after) {document : Text} {content : Bytes}
    (hread : built.read document = .ok content) (hne : content ≠ report.manifest.bytes) :
    (after.read document = .ok content ↔ ¬ c.Overwrites built document) ∧
      (c.Overwrites built document → after.read document = .ok report.manifest.bytes) := by
  obtain ⟨hnone, rfl⟩ | ⟨manifest, hsome, hwrite⟩ := h
  · have hnot : ¬ c.Overwrites after document := by
      rintro ⟨manifest, hsome, -⟩
      rw [hnone] at hsome
      cases hsome
    exact ⟨iff_of_true hread hnot, fun hover => absurd hover hnot⟩
  · obtain ⟨hmeets, hmisses⟩ := FileSystem.read_of_write hwrite hread
    have hover : c.Overwrites built document ↔ built.Meet manifest document := by
      simp only [Overwrites, hsome, Option.some.injEq, exists_eq_left']
    rw [hover]
    refine ⟨⟨fun hsame hmeet => ?_, hmisses⟩, hmeets⟩
    rw [hmeets hmeet, Except.ok.injEq] at hsame
    exact hne hsame.symm

/-- The build has succeeded, and the documents that its report names hold the encodings of their
sources, but for a document to which the manifest leads: that one holds the manifest. A source that
could be read before had the same contents then. -/
def LeavesDocuments (c : DumpCommand) (fs after : FileSystem) : Prop :=
  let built := c.miner.build fs c.input c.output
  ∃ report, built.result = .ok report ∧
    ∀ file ∈ report.files, ∀ document, file.outputPath = some document →
      ∃ bytes tree, c.miner.Documents built.fs file.sourcePath document bytes tree ∧
        (∀ before, fs.read file.sourcePath = .ok before → before = bytes) ∧
        (after.read document = .ok (tree.encoding c.encoding).bytes ↔
          ¬ c.Overwrites built.fs document) ∧
        (c.Overwrites built.fs document → after.read document = .ok report.manifest.bytes)

end DumpCommand

namespace Program

/-- When a dump command is done, its documents are what the report says, but for one that the
manifest has replaced. -/
theorem run_dump {arguments : List Text} {c : DumpCommand} {verbosity : Nat} {quiet : Bool}
    (h : Invocation.ofArguments arguments = .ok ⟨.dump c, verbosity, quiet⟩) (fs : FileSystem)
    (console : Console) (coloured : Bool)
    (hdone : (run arguments fs console coloured).ending.status = 0) :
    c.LeavesDocuments fs (run arguments fs console coloured).fs := by
  obtain ⟨hfs, -, hsummary⟩ := run_of_command h fs console coloured
  simp only [Command.perform] at hfs hsummary
  obtain ⟨summary, hresult⟩ := hsummary hdone
  obtain ⟨report, hreport, hconcludes⟩ := DumpCommand.perform_eq_ok hresult
  rw [hfs]
  refine ⟨report, hreport, fun file hfile document hdocument => ?_⟩
  obtain ⟨bytes, tree, hdocuments⟩ := Miner.documents_of_build hreport file hfile document hdocument
  refine ⟨bytes, tree, hdocuments, fun before hbefore => ?_, ?_⟩
  · have hsame := Miner.read_build hreport hbefore
    rw [hdocuments.read_source] at hsame
    exact (Except.ok.inj hsame).symm
  · obtain ⟨source, -, hparse⟩ := hdocuments.parsed
    refine DumpCommand.read_of_concludes hconcludes hdocuments.read_document fun hbytes => ?_
    exact encoding_ne_manifest hparse c.encoding report (Text.bytes_injective hbytes)

/-- The arguments of a dump of the small project with a manifest at the given path. -/
def dumpArguments (manifest : String) : List Text :=
  ["flat-dump", "in", "-o", "out", "--manifest", manifest].map String.toList

def dumpCommand (manifest : String) : DumpCommand :=
  ⟨"in".toList, "out".toList, {}, "sutra".toList, some manifest.toList⟩

/-- A manifest beside the document leaves it alone. -/
theorem run_dump_smallProject :
    (run (dumpArguments "out/report.json") Miner.smallProject {} false).ending.status = 0 ∧
      (dumpCommand "out/report.json").LeavesDocuments Miner.smallProject
        (run (dumpArguments "out/report.json") Miner.smallProject {} false).fs ∧
      (run (dumpArguments "out/report.json") Miner.smallProject {} false).fs.read
        "out/00000002.txt".toList = .ok (Text.bytes "x 1".toList) := by
  have harguments : Invocation.ofArguments (dumpArguments "out/report.json") =
      .ok ⟨.dump (dumpCommand "out/report.json"), 0, false⟩ := by
    decide +kernel
  have hdone :
      (run (dumpArguments "out/report.json") Miner.smallProject {} false).ending.status = 0 := by
    decide +kernel
  exact ⟨hdone, run_dump harguments Miner.smallProject {} false hdone, by decide +kernel⟩

/-- A manifest may lead to the document. The command succeeds, and the document is lost. -/
theorem manifest_replaces_document :
    Invocation.ofArguments (dumpArguments "out/00000002.txt") =
        .ok ⟨.dump (dumpCommand "out/00000002.txt"), 0, false⟩ ∧
      (run (dumpArguments "out/00000002.txt") Miner.smallProject {} false).ending.status = 0 ∧
      Miner.smallProject.names Miner.outputDir = [] ∧
      Miner.OutsideWalk (Miner.prepareOutput Miner.smallProject "out".toList).1 "in".toList
        "out".toList ∧
      ((Miner.ofScripts {}).build Miner.smallProject "in".toList "out".toList).result.toOption.map
          BuildReport.files =
        some [⟨2, "in/p/a.sutra".toList, .written, some "out/00000002.txt".toList⟩,
          ⟨3, "in/p/b.Sutra".toList, .skippedUnparsable, none⟩,
          ⟨4, "in/p/c.txt".toList, .skippedNonMatchingExtension, none⟩] ∧
      Miner.smallProject.read "in/p/a.sutra".toList = .ok (Text.bytes "(x 1)".toList) ∧
      ∃ tree, Script.parse "in/p/a.sutra".toList "(x 1)".toList = .ok tree ∧
        (run (dumpArguments "out/00000002.txt") Miner.smallProject {} false).fs.read
          "out/00000002.txt".toList ≠ .ok (tree.encoding {}).bytes := by
  refine ⟨by decide +kernel, by decide +kernel, by decide +kernel, by decide +kernel,
    by decide +kernel, by decide +kernel,
    .composite .program [.composite .list [.identifier "x".toList, .literal "1".toList]], ?_⟩
  decide +kernel

end Program

end TokenCorpus
