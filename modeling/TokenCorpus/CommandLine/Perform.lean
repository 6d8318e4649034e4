import TokenCorpus.CommandLine.Command
import TokenCorpus.CommandLine.Summary
import TokenCorpus.Console
import TokenCorpus.Corpus.Build
import TokenCorpus.Corpus.Manifest

/-!
Performing commands.

A command does its work on the file system first and prints after that, so a console that refuses
costs the summary and nothing else.
-/

namespace TokenCorpus

/-- Why a command fails. -/
inductive CommandError where
  /-- The run over the input ended early. -/
  | run (cause : BuildError)
  /-- The manifest cannot be written. -/
  | manifest (path : Text) (cause : FileError)
  /-- The vocabulary file cannot be made. -/
  | vocabulary (path : Text) (cause : FileError)
  /-- The script cannot be read. -/
  | script (path : Text) (cause : FileError)
  /-- The script is no text. -/
  | scriptNotText (path : Text)
  /-- The script has no tree. -/
  | parse (cause : ParseError)
  /-- The console refuses. -/
  | console (cause : ConsoleError)
  deriving DecidableEq, Repr

namespace CommandError

/-- What failed. -/
def message : CommandError → Text
  | run cause => cause.message
  | manifest path _ => "failed to write manifest ".toList ++ BuildError.quotedPath path
  | vocabulary path _ => "failed to create vocabulary ".toList ++ BuildError.quotedPath path
  | script path _ | scriptNotText path =>
    "failed to read ".toList ++ BuildError.quotedPath path
  | parse cause => cause.message
  | console cause => cause.message.toList

/-- What it comes from, nearest cause first. -/
def causes : CommandError → List Text
  | run cause => cause.causes
  | manifest _ cause | vocabulary _ cause | script _ cause => [cause.message.toList]
  | scriptNotText _ => ["stream did not contain valid UTF-8".toList]
  | parse _ | console _ => []

/-- The lines of a complaint. -/
def complaint (e : CommandError) : List Text := e.message :: e.causes

end CommandError

/-- The work of a command: the file system after it, the log, and what is left to print or what
ended it before its time. -/
structure Work where
  fs : FileSystem
  log : List Event
  result : Except (Abort CommandError) (List Stretch)

/-- The work of a dump. -/
def DumpCommand.perform (c : DumpCommand) (fs : FileSystem) : Work :=
  let miner := Miner.ofScripts ((BuildOptions.ofEncoding c.encoding).withExtension c.extension)
  let outcome := miner.build fs c.input c.output
  match outcome.result with
  | .error cause => ⟨outcome.fs, outcome.log, .error (cause.map .run)⟩
  | .ok report =>
    let summary := report.dumpSummary c.output
    match c.manifest with
    | none => ⟨outcome.fs, outcome.log, .ok summary⟩
    | some path =>
      match outcome.fs.write path report.manifest.bytes with
      | .error e => ⟨outcome.fs, outcome.log, .error (.raised (.manifest path e))⟩
      | .ok fs => ⟨fs, outcome.log, .ok summary⟩

/-- The work of counting. The vocabulary file is made when the input has been read. -/
def VocabularyCommand.perform (c : VocabularyCommand) (fs : FileSystem) : Work :=
  let miner := Miner.ofScripts ((BuildOptions.ofEncoding c.encoding).withExtension c.extension)
  let outcome := miner.countTokens fs c.input
  match outcome.result with
  | .error cause => ⟨outcome.fs, outcome.log, .error (cause.map .run)⟩
  | .ok (counts, report) =>
    let vocabulary := counts.vocabulary c.minCount
    match outcome.fs.write c.output vocabulary.render.bytes with
    | .error e => ⟨outcome.fs, outcome.log, .error (.raised (.vocabulary c.output e))⟩
    | .ok fs =>
      ⟨fs, outcome.log, .ok (report.vocabularySummary vocabulary counts c.output)⟩

/-- The encoding of the script at a path, as its bytes read back. -/
def ShowCommand.encoded (c : ShowCommand) (fs : FileSystem) : Except CommandError Text :=
  match fs.read c.file with
  | .error e => .error (.script c.file e)
  | .ok bytes =>
    match Utf8.decode? bytes with
    | none => .error (.scriptNotText c.file)
    | some source =>
      match Script.parse c.file source with
      | .error e => .error (.parse e)
      | .ok tree => .ok (Utf8.lossy (tree.encoding c.encoding).bytes)

/-- The work of showing a script. -/
def ShowCommand.perform (c : ShowCommand) (fs : FileSystem) : Work :=
  match c.encoded fs with
  | .error e => ⟨fs, [], .error (.raised e)⟩
  | .ok t => ⟨fs, [], .ok [.plain [t, lineEnd]]⟩

/-- The work of a command. -/
def Command.perform (c : Command) (fs : FileSystem) : Work :=
  match c with
  | .dump c => c.perform fs
  | .vocabulary c => c.perform fs
  | .display c => c.perform fs

end TokenCorpus
