import TokenCorpus.CommandLine.Arguments
import TokenCorpus.CommandLine.Perform

/-!
The program: from the arguments and the file system to what is left behind.
-/

namespace TokenCorpus

/-- How the program ends. -/
inductive Ending where
  /-- The command is done. -/
  | done
  /-- No command was run. -/
  | noRun (reason : NoRun)
  /-- The command failed. -/
  | failed (error : CommandError)
  /-- The command panicked. -/
  | panicked
  deriving DecidableEq, Repr

namespace Ending

/-- The ending of a command that was ended before its time. -/
def ofAbort : Abort CommandError → Ending
  | .raised e => failed e
  | .panic => panicked

/-- The exit status. -/
def status : Ending → Nat
  | done => 0
  | noRun reason => reason.status
  | failed _ => 1
  | panicked => 101

/-- The lines of the complaint about a failed command. -/
def complaint : Ending → List Text
  | failed error => error.complaint
  | done | noRun _ | panicked => []

end Ending

/-- What the program leaves behind. -/
structure Aftermath where
  fs : FileSystem
  log : List Text
  console : Console
  ending : Ending

namespace Program

/-- The name and version of the program. -/
def version : Text := "sutra-corpus 0.1.0\n".toList

/-- The help text. -/
def help : Text :=
  ("Dump syntax trees of Sutra scripts as token corpora.\n\n" ++
    "Usage: sutra-corpus [-v]... [-q] COMMAND\n\n" ++
    "Commands:\n" ++
    "  flat-dump INPUT -o OUT   a token sequence for every script\n" ++
    "  tree-dump INPUT -o OUT   a parenthesized token tree for every script\n" ++
    "  vocab INPUT -o OUT       a vocabulary, most frequent tokens first\n" ++
    "  show FILE                the encoding of one script\n" ++
    "  help [COMMAND]           this text\n\n" ++
    "Options:\n" ++
    "      --literals BOOL      include literals (default true)\n" ++
    "      --ext EXT            extension of the scripts (default sutra)\n" ++
    "      --subtokenize        split tokens into lowercase subtokens\n" ++
    "      --manifest PATH      write a report as JSON (dumps)\n" ++
    "      --min-count N        drop rarer tokens (vocab, default 2)\n" ++
    "      --tree               print the token tree (show)\n" ++
    "  -v, --verbose            log more detail\n" ++
    "  -q, --quiet              only log errors\n" ++
    "  -h, --help               print this text\n" ++
    "  -V, --version            print the version\n").toList

/-- What is printed when no command runs. -/
def answer : NoRun → List Text
  | .help => [help]
  | .version => [version]
  | _ => []

/-- Runs the program. -/
def run (arguments : List Text) (fs : FileSystem) (console : Console) (coloured : Bool) :
    Aftermath :=
  match Invocation.ofArguments arguments with
  | .error reason => ⟨fs, [], (console.putAll (answer reason)).2, .noRun reason⟩
  | .ok invocation =>
    let work := invocation.command.perform fs
    let log := logLines invocation.logLevel work.log
    match work.result with
    | .error cause => ⟨work.fs, log, console, .ofAbort cause⟩
    | .ok summary =>
      match console.putAll (summary.flatMap (Stretch.render coloured)) with
      | (.ok (), console) => ⟨work.fs, log, console, .done⟩
      | (.error e, console) => ⟨work.fs, log, console, .failed (.console e)⟩

end Program

end TokenCorpus
