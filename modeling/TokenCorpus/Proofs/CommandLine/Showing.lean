import TokenCorpus.Proofs.Text.Utf8
import TokenCorpus.Proofs.Script.Acceptance
import TokenCorpus.Proofs.Corpus.Collisions
import TokenCorpus.Proofs.Corpus.Delivery
import TokenCorpus.Proofs.CommandLine.Performing

/-!
What the command that shows a script has to do with a build.

Whether a file is a script depends on its contents only, and so does its encoding. So the command
prints what a build writes into the document of a file with the same contents, or prints nothing
where the build skips the file.
-/

namespace TokenCorpus

namespace ShowCommand

/-- How a build with the encoding of the command treats files. -/
def miner (c : ShowCommand) (extension : Text) : Miner := .ofCommand c.encoding extension

theorem encoded_of_parsed {c : ShowCommand} {fs : FileSystem} {content : Bytes}
    {path source : Text} {tree : Node} (hread : fs.read c.file = .ok content)
    (hdecode : Utf8.decode? content = some source) (hparse : Script.parse path source = .ok tree) :
    c.encoded fs = .ok (tree.encoding c.encoding) := by
  simp only [encoded, hread, hdecode, Script.parse_eq_ok_congr.mp hparse, Utf8.lossy_bytes]

theorem encoded_of_refused {c : ShowCommand} {fs : FileSystem} {content : Bytes} {path : Text}
    (hread : fs.read c.file = .ok content)
    (hrefused : ∀ source, Utf8.decode? content = some source →
      ∃ e, Script.parse path source = .error e) : ∃ e, c.encoded fs = .error e := by
  rw [encoded, hread]
  simp only
  cases hdecode : Utf8.decode? content with
  | none => exact ⟨_, rfl⟩
  | some source =>
    simp only
    cases hparse : Script.parse c.file source with
    | error e => exact ⟨_, rfl⟩
    | ok tree =>
      obtain ⟨e, hrefuses⟩ := hrefused source hdecode
      rw [Script.parse_eq_ok_congr.mp hparse] at hrefuses
      cases hrefuses

end ShowCommand

/-- The command that shows a script has done with a file what a build has done with it. If the build
has written a document, the command is done and has printed what the document holds. Otherwise the
build has found that the file is no script, and the command has failed and printed nothing. -/
structure Aftermath.AgreesOn (after : Aftermath) (before : Console) (built : FileSystem)
    (file : CorpusFile) : Prop where
  done_iff : after.ending.status = 0 ↔ file.status = .written
  printed : file.status = .written → ∃ document content, file.outputPath = some document ∧
    built.read document = .ok content ∧
    after.console.shown.bytes = (before.shown ++ before.line).bytes ++ content ++ lineEnd.bytes
  unprinted : file.status ≠ .written → file.status = .skippedUnparsable ∧ after.console = before

namespace Program

variable {arguments : List Text} {c : ShowCommand} {verbosity : Nat} {quiet : Bool}
  {shown fs : FileSystem} {console : Console}

theorem run_show_of_encoded
    (h : Invocation.ofArguments arguments = .ok ⟨.display c, verbosity, quiet⟩)
    (hlimit : console.limit = none) (coloured : Bool) {t : Text}
    (hencoded : c.encoded shown = .ok t) :
    (run arguments shown console coloured).ending = .done ∧
      (run arguments shown console coloured).console.shown =
        console.shown ++ console.line ++ t ++ lineEnd := by
  have hresult : ((Command.display c).perform shown).result = .ok [.plain [t, lineEnd]] := by
    simp only [Command.perform, ShowCommand.perform, hencoded]
  rw [run_of_printed h hresult (Console.putAll_line hlimit t)]
  exact ⟨rfl, rfl⟩

theorem run_show_of_unencoded
    (h : Invocation.ofArguments arguments = .ok ⟨.display c, verbosity, quiet⟩) (console : Console)
    (coloured : Bool) {e : CommandError} (hencoded : c.encoded shown = .error e) :
    (run arguments shown console coloured).ending = .failed e ∧
      (run arguments shown console coloured).console = console := by
  have hresult : ((Command.display c).perform shown).result = .error (.raised e) := by
    simp only [Command.perform, ShowCommand.perform, hencoded]
  rw [run_of_error h hresult]
  exact ⟨rfl, rfl⟩

theorem agreesOn_of_treated
    (h : Invocation.ofArguments arguments = .ok ⟨.display c, verbosity, quiet⟩)
    (hlimit : console.limit = none) (coloured : Bool) {content : Bytes}
    (hread : shown.read c.file = .ok content) {extension : Text} {built : FileSystem}
    {file : CorpusFile} (htreated : (c.miner extension).Treated built content file) :
    (run arguments shown console coloured).AgreesOn console built file := by
  cases htreated with
  | @written source document tree hdecode hparse hstatus houtput hdocument =>
    obtain ⟨hending, hshown⟩ := run_show_of_encoded h hlimit coloured
      (ShowCommand.encoded_of_parsed hread hdecode hparse)
    refine ⟨?_, fun _ => ⟨document, _, houtput, hdocument, ?_⟩, fun hne => absurd hstatus hne⟩
    · exact iff_of_true (congrArg Ending.status hending) hstatus
    · rw [hshown, Text.bytes_append, Text.bytes_append]
      rfl
  | unparsable hrefused hstatus =>
    obtain ⟨e, hencoded⟩ := ShowCommand.encoded_of_refused hread hrefused
    obtain ⟨hending, hconsole⟩ := run_show_of_unencoded h console coloured hencoded
    have hfailed : (run arguments shown console coloured).ending.status = 1 :=
      congrArg Ending.status hending
    have hnot : file.status ≠ .written := by
      rw [hstatus]
      decide
    refine ⟨iff_of_false ?_ hnot, fun hwritten => absurd hwritten hnot, fun _ => ?_⟩
    · rw [hfailed]
      decide
    · exact ⟨hstatus, hconsole⟩

/-- The command that shows a script agrees with every build that succeeds over a directory that
holds a file with the same contents. A build into an empty directory does succeed, as long as
everything can be visited, read and named. -/
theorem run_show
    (h : Invocation.ofArguments arguments = .ok ⟨.display c, verbosity, quiet⟩)
    (hlimit : console.limit = none) (coloured : Bool) {content : Bytes}
    (hread : shown.read c.file = .ok content) {input output : Text} (extension : Text)
    {above : List Name} {name : Name} (hholds : fs.Holds input above name content)
    (haccepts : (c.miner extension).options.accepts name.text)
    (houtside : Miner.OutsideWalk (Miner.prepareOutput fs output).1 input output) :
    (∀ out stops, fs.names out = [] → (c.miner extension).Dumpable fs input output out stops →
      ∃ report, ((c.miner extension).build fs input output).result = .ok report) ∧
    ∀ report, ((c.miner extension).build fs input output).result = .ok report →
      (∃ file ∈ report.files, file.sourcePath = Path.below input (above ++ [name])) ∧
      ∀ file ∈ report.files, file.sourcePath = Path.below input (above ++ [name]) →
        (run arguments shown console coloured).AgreesOn console
          ((c.miner extension).build fs input output).fs file := by
  refine ⟨fun out stops hempty hdumpable => ?_, fun report hreport => ⟨?_, ?_⟩⟩
  · obtain ⟨hok, -⟩ | ⟨-, stop, hcollides⟩ := hdumpable.collides_cases
    · exact hok
    · exact absurd hcollides.occupied (Miner.not_occupied_of_empty hempty stop)
  · obtain ⟨trails, hnumbered⟩ := (Miner.Succeeds.build houtside hreport).numbered
    exact hnumbered.exists_file (hholds.grows (Miner.prepareOutput_grows fs output)).shows
  · intro file hfile hpath
    have hcontent : fs.read file.sourcePath = .ok content := by
      rw [hpath]
      exact hholds.read_eq
    exact agreesOn_of_treated h hlimit coloured hread
      (Miner.treated_of_build hreport haccepts hfile hpath hcontent)

/-- The arguments that ask for the encoding of the script of the small project. -/
def showArguments : List Text := ["show".toList, "in/p/a.sutra".toList]

def showCommand : ShowCommand := ⟨"in/p/a.sutra".toList, {}⟩

theorem ofArguments_showArguments :
    Invocation.ofArguments showArguments = .ok ⟨.display showCommand, 0, false⟩ := by
  decide +kernel

theorem valid_projectName : Name.Valid "p".toList := by decide

def projectName : Name := ⟨"p".toList, valid_projectName⟩

theorem holds_smallProject :
    Miner.smallProject.Holds "in".toList [projectName] Miner.firstScript
      (Text.bytes "(x 1)".toList) := by
  have hroot : Miner.smallProject.findDirectory "in".toList = .ok Miner.inputDir := by
    decide +kernel
  have hproject : Miner.smallProject.get? (projectName :: Miner.inputDir) = some .directory := by
    decide +kernel
  have hscript : Miner.smallProject.get? (Miner.firstScript :: projectName :: Miner.inputDir) =
      some (.file (Text.bytes "(x 1)".toList)) := by
    decide +kernel
  exact ⟨⟨_, .inside hroot hproject (.entry hscript), rfl⟩, by decide +kernel⟩

theorem run_show_smallProject :
    ∃ report file,
      ((showCommand.miner "sutra".toList).build Miner.smallProject "in".toList
        "out".toList).result = .ok report ∧
      file ∈ report.files ∧ file.sourcePath = "in/p/a.sutra".toList ∧
      (run showArguments Miner.smallProject {} false).AgreesOn {}
        ((showCommand.miner "sutra".toList).build Miner.smallProject "in".toList "out".toList).fs
        file ∧
      (run showArguments Miner.smallProject {} false).console.shown = "x 1\n".toList := by
  have hlimit : ({} : Console).limit = none := rfl
  have hread : Miner.smallProject.read showCommand.file = .ok (Text.bytes "(x 1)".toList) := by
    decide +kernel
  have haccepts : (showCommand.miner "sutra".toList).options.accepts Miner.firstScript.text := by
    decide +kernel
  have houtside : Miner.OutsideWalk (Miner.prepareOutput Miner.smallProject "out".toList).1
      "in".toList "out".toList := by
    decide +kernel
  obtain ⟨hbuilds, hagrees⟩ := run_show ofArguments_showArguments hlimit false hread "sutra".toList
    holds_smallProject haccepts houtside
  obtain ⟨report, hreport⟩ :=
    hbuilds Miner.outputDir Miner.smallStops (by decide +kernel) Miner.dumpable_smallProject
  obtain ⟨⟨file, hfile, hpath⟩, hall⟩ := hagrees report hreport
  exact ⟨report, file, hreport, hfile, hpath, hall file hfile hpath, by decide +kernel⟩

/-- There is no agreement where a document has too long a path or the console is full. Then the
build fails where the command is done, or the other way round. -/
theorem show_differs_from_build :
    Invocation.ofArguments showArguments = .ok ⟨.display showCommand, 0, false⟩ ∧
      Miner.smallProject.read showCommand.file = .ok (Text.bytes "(x 1)".toList) ∧
      Miner.smallProject.Holds "in".toList [projectName] Miner.firstScript
        (Text.bytes "(x 1)".toList) ∧
      (showCommand.miner "sutra".toList).options.accepts Miner.firstScript.text ∧
      (Miner.smallProject.findDirectory Miner.slashedOutput = .ok Miner.outputDir ∧
        Miner.smallProject.names Miner.outputDir = [] ∧
        Miner.OutsideWalk Miner.smallProject "in".toList Miner.slashedOutput) ∧
      ((run showArguments Miner.smallProject {} false).ending.status = 0 ∧
        ((showCommand.miner "sutra".toList).build Miner.smallProject "in".toList
          Miner.slashedOutput).result.isOk = false) ∧
      (run showArguments Miner.smallProject (.empty (some ⟨0, .noSpace⟩)) false).ending.status = 1 ∧
        ((showCommand.miner "sutra".toList).build Miner.smallProject "in".toList
          "out".toList).result.isOk = true := by
  refine ⟨ofArguments_showArguments, by decide +kernel, holds_smallProject, by decide +kernel,
    by decide +kernel, by decide +kernel, by decide +kernel, by decide +kernel⟩

end Program

end TokenCorpus
