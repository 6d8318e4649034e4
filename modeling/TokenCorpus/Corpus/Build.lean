import TokenCorpus.Corpus.Run
import TokenCorpus.Script.Parser

/-!
Building a corpus, and counting the tokens that one would hold.
-/

namespace TokenCorpus

/-- What a request leaves behind: the file system, the log, and a result or what ended it before its
time. -/
structure Outcome (α : Type) where
  fs : FileSystem
  log : List Event
  result : Except (Abort BuildError) α

namespace Miner

/-- A miner of scripts. -/
def ofScripts (options : BuildOptions) : Miner := ⟨Script.parse, options⟩

/-- Makes sure that the output path leads to a directory. -/
def prepareOutput (fs : FileSystem) (output : Text) : FileSystem × Option BuildError :=
  if fs.leadsSomewhere output then
    (fs, if fs.isDirectory output then none else some (.invalidOutputDir output))
  else
    let (fs, failure) := fs.createDirectories output
    (fs, failure.map (.io .create output))

/-- Encodes every script below `input` into a document in `output`. -/
def build (miner : Miner) (fs : FileSystem) (input output : Text) : Outcome BuildReport :=
  match prepareOutput fs output with
  | (fs, some e) => ⟨fs, [], .error (.raised e)⟩
  | (fs, none) =>
    let encoding := miner.options.encoding
    let run := Run.start fs encoding [.buildStarted input output encoding]
    match run.all miner (.dump output) input with
    | .error failure => ⟨failure.run.fs, failure.run.log, .error failure.cause⟩
    | .ok run => ⟨run.fs, run.log ++ [.buildComplete run.report], .ok run.report⟩

/-- Counts the words of the tokens of every script below `input`. -/
def countTokens (miner : Miner) (fs : FileSystem) (input : Text) :
    Outcome (TokenCounts × BuildReport) :=
  let run := Run.start fs miner.options.encoding [.countStarted input]
  match run.all miner .tally input with
  | .error failure => ⟨failure.run.fs, failure.run.log, .error failure.cause⟩
  | .ok run =>
    ⟨run.fs, run.log ++ [.countComplete run.report run.counts.distinct],
      .ok (run.counts, run.report)⟩

end Miner

end TokenCorpus
