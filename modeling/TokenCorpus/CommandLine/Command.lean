import TokenCorpus.Corpus.Event

/-!
Commands: what a command line asks for.
-/

namespace TokenCorpus

/-- Write a document for every script of a directory. -/
structure DumpCommand where
  input : Text
  output : Text
  encoding : EncodingConfig
  extension : Text
  /-- Where the report goes, if it is wanted. -/
  manifest : Option Text
  deriving DecidableEq, Repr, Inhabited

/-- Count the tokens of all scripts of a directory and write a vocabulary. -/
structure VocabularyCommand where
  input : Text
  output : Text
  encoding : EncodingConfig
  extension : Text
  /-- Tokens counted fewer times are left out. -/
  minCount : Nat
  deriving DecidableEq, Repr, Inhabited

/-- Print the encoding of one script. -/
structure ShowCommand where
  file : Text
  encoding : EncodingConfig
  deriving DecidableEq, Repr, Inhabited

/-- A command. -/
inductive Command where
  | dump (command : DumpCommand)
  | vocabulary (command : VocabularyCommand)
  | display (command : ShowCommand)
  deriving DecidableEq, Repr

/-- A command and how much to tell about it. -/
structure Invocation where
  command : Command
  /-- How often more detail was asked for. -/
  verbosity : Nat
  /-- Whether only errors are to be told. -/
  quiet : Bool
  deriving DecidableEq, Repr

/-- The least level of the log lines to be written. -/
def Invocation.logLevel (i : Invocation) : LogLevel :=
  if i.quiet then .error
  else
    match i.verbosity with
    | 0 => .info
    | 1 => .debug
    | _ => .trace

/-- Why a command line runs no command. -/
inductive NoRun where
  /-- It asks for help. -/
  | help
  /-- It asks for the version. -/
  | version
  /-- It asks for nothing. -/
  | nothingGiven
  /-- It has options, but no command. -/
  | commandMissing
  /-- There is no command of that name. -/
  | commandUnknown
  /-- The command knows no such argument, or has enough of them. -/
  | argumentUnknown
  /-- The command needs an argument that is not there. -/
  | argumentMissing
  /-- Two arguments exclude each other. -/
  | conflict
  /-- A switch was given a value. -/
  | needlessValue
  /-- An option has no value, an empty one, or none of those it may have. -/
  | valueInvalid
  /-- A value is no number, or too large. -/
  | numberInvalid
  deriving DecidableEq, Repr, Inhabited

/-- The exit status without a command. Asking for help or the version is no error. -/
def NoRun.status : NoRun → Nat
  | help | version => 0
  | _ => 2

end TokenCorpus
