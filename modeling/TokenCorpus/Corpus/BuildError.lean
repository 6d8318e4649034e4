import TokenCorpus.FileSystem.Error
import TokenCorpus.Text

/-!
What ends a run before its time: an error, or a panic.

An error is an answer, and whoever asked for the run can deal with it. A panic is none.
-/

namespace TokenCorpus

/-- What ends a computation before its time. -/
inductive Abort (ε : Type) where
  | raised (error : ε)
  /-- The whole program ends on the spot. -/
  | panic
  deriving DecidableEq, Repr

/-- The same with an error made from the one that was raised. -/
def Abort.map {ε δ : Type} (f : ε → δ) : Abort ε → Abort δ
  | raised error => .raised (f error)
  | panic => .panic

/-- What a run was doing when the file system refused. A document is made and written in one step,
so to write and to flush are no actions of their own. -/
inductive FileAction where
  | read
  | readDirectory
  | create
  deriving DecidableEq, Repr, Inhabited

/-- The name of an action in messages. -/
def FileAction.name : FileAction → String
  | read => "read"
  | readDirectory => "read directory"
  | create => "create"

/-- A condition that ends a run. -/
inductive BuildError where
  /-- The output path leads to something that is no directory. -/
  | invalidOutputDir (path : Text)
  /-- The file system refused. -/
  | io (action : FileAction) (path : Text) (cause : FileError)
  /-- An entry of the input cannot be visited. It lies `depth` levels below an entry of the input
  directory. -/
  | walk (path : Text) (depth : Nat) (cause : FileError)
  /-- The path of a document is taken. -/
  | outputCollision (sequence : Nat) (path : Text)
  /-- A sequence number has too many digits. -/
  | sequenceOverflow (sequence width : Nat)
  deriving DecidableEq, Repr, Inhabited

namespace BuildError

/-- The name of the kind of an error. -/
def kind : BuildError → String
  | invalidOutputDir _ => "InvalidOutputDir"
  | io .. => "Io"
  | walk .. => "Walk"
  | outputCollision .. => "OutputCollision"
  | sequenceOverflow .. => "SequenceOverflow"

/-- A path between quotation marks. -/
def quotedPath (path : Text) : Text := '\'' :: path ++ ['\'']

/-- The error in one line. -/
def message : BuildError → Text
  | invalidOutputDir path =>
    "Output path ".toList ++ quotedPath path ++ " exists and is not a directory".toList
  | io action path _ =>
    "I/O error while trying to ".toList ++ action.name.toList ++ ' ' :: quotedPath path
  | walk .. => "Failed to walk input tree".toList
  | outputCollision sequence path =>
    "Output document ".toList ++ quotedPath path ++ " already exists (sequence ".toList ++
      Text.ofNat sequence ++ [')']
  | sequenceOverflow sequence width =>
    "Sequence number ".toList ++ Text.ofNat sequence ++ " does not fit in ".toList ++
      Text.ofNat width ++ " digits".toList

/-- The code under which an error is listed. -/
def code : BuildError → String
  | invalidOutputDir _ => "sutra_corpus::usage"
  | io .. => "sutra_corpus::io"
  | walk .. => "sutra_corpus::walk"
  | outputCollision .. => "sutra_corpus::collision"
  | sequenceOverflow .. => "sutra_corpus::sequence_overflow"

/-- What to do about an error. -/
def help : BuildError → Option String
  | invalidOutputDir _ => some "pass an empty or nonexistent directory to --out"
  | outputCollision .. =>
    some "documents are never overwritten; write into an empty output directory"
  | io .. | walk .. | sequenceOverflow .. => none

/-- What the error comes from, nearest cause first. -/
def causes : BuildError → List Text
  | io _ _ cause => [cause.message.toList]
  | walk path _ cause =>
    ["IO error for operation on ".toList ++ path ++ ": ".toList ++ cause.message.toList,
      cause.message.toList]
  | invalidOutputDir _ | outputCollision .. | sequenceOverflow .. => []

end BuildError

end TokenCorpus
