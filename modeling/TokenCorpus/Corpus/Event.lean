import TokenCorpus.Corpus.Report

/-!
What a run tells while it works.
-/

namespace TokenCorpus

/-- How much a line of the log matters, most first. -/
inductive LogLevel where
  | error
  | warn
  | info
  | debug
  | trace
  deriving DecidableEq, Repr, Inhabited

namespace LogLevel

/-- The place of a level in the order. -/
def rank : LogLevel → Nat
  | error => 0
  | warn => 1
  | info => 2
  | debug => 3
  | trace => 4

/-- The name of a level in log lines. -/
def name : LogLevel → String
  | error => "ERROR"
  | warn => "WARN"
  | info => "INFO"
  | debug => "DEBUG"
  | trace => "TRACE"

end LogLevel

/-- Something that happened in a run. -/
inductive Event where
  | buildStarted (input output : Text) (encoding : EncodingConfig)
  | buildComplete (report : BuildReport)
  | countStarted (input : Text)
  | countComplete (report : BuildReport) (distinct : Nat)
  | directory (sequence : Nat) (path : Text)
  | otherExtension (sequence : Nat) (path : Text)
  | unparsable (sequence : Nat) (path detail : Text)
  | accepted (sequence : Nat) (path : Text) (status : FileStatus)
  deriving DecidableEq, Repr

namespace Event

/-- How much an event matters. -/
def level : Event → LogLevel
  | buildStarted .. | buildComplete _ | countStarted _ | countComplete .. => .info
  | unparsable .. => .warn
  | directory .. | otherExtension .. | accepted .. => .debug

/-- The name of a mode in log lines. -/
def modeTitle : EncodingMode → String
  | .flat => "Flat"
  | .tree => "Tree"

/-- A field of a log line. -/
def textField (name : String) (value : Text) : Text := ' ' :: name.toList ++ '=' :: value

/-- A field with a number. -/
def natField (name : String) (value : Nat) : Text := textField name (Text.ofNat value)

/-- The fields of an event about one entry. -/
def entryFields (sequence : Nat) (path : Text) : Text :=
  natField "sequence" sequence ++ textField "path" path

/-- What a line of the log says after its level. -/
def message : Event → Text
  | buildStarted input output encoding =>
    "building corpus".toList ++ textField "input" input ++ textField "output" output ++
      textField "mode" (modeTitle encoding.mode).toList ++
      textField "literals" (if encoding.includeLiterals then "true" else "false").toList
  | buildComplete report =>
    "corpus complete".toList ++ natField "entries" report.entriesVisited ++
      natField "written" report.written ++ natField "unparsable" report.skippedUnparsable ++
      natField "other" report.skippedExtension
  | countStarted input => "counting tokens".toList ++ textField "input" input
  | countComplete report distinct =>
    "token count complete".toList ++ natField "entries" report.entriesVisited ++
      natField "counted" report.counted ++ natField "unparsable" report.skippedUnparsable ++
      natField "distinct" distinct
  | directory sequence path => "directory".toList ++ entryFields sequence path
  | otherExtension sequence path => "skipping: extension".toList ++ entryFields sequence path
  | unparsable sequence path detail =>
    "skipping: unparsable".toList ++ entryFields sequence path ++ textField "error" detail
  | accepted sequence path status =>
    "accepted".toList ++ entryFields sequence path ++ textField "status" status.title.toList

/-- The line of an event in the log. -/
def line (e : Event) : Text := e.level.name.toList ++ ' ' :: e.message

end Event

/-- The lines of a log that matter at least as much as `level`. -/
def logLines (level : LogLevel) (events : List Event) : List Text :=
  (events.filter (·.level.rank ≤ level.rank)).map Event.line

end TokenCorpus
