import TokenCorpus.Text

/-!
Sinks that take a limited number of bytes.
-/

namespace TokenCorpus

/-- How a sink without room answers a write. -/
inductive WhenFull where
  /-- It fails. -/
  | fail
  /-- It takes nothing and reports success. -/
  | takeNothing
  deriving DecidableEq, Repr, Inhabited

/-- Why a text was not written to its end. -/
inductive WriteError where
  | diskFull
  | nothingTaken
  deriving DecidableEq, Repr, Inhabited

namespace WriteError

/-- The kind of the error. -/
def kind : WriteError → String
  | diskFull => "Other"
  | nothingTaken => "WriteZero"

/-- The wording of the error. -/
def message : WriteError → String
  | diskFull => "disk full"
  | nothingTaken => "failed to write whole buffer"

end WriteError

/-- A sink: the bytes it has taken, and how many more it takes. -/
structure Sink where
  taken : Bytes
  room : Nat
  whenFull : WhenFull
  deriving DecidableEq, Repr, Inhabited

/-- Programs that write to a sink and stop at the first error. -/
abbrev SinkM := ExceptT WriteError (StateM Sink)

namespace Sink

/-- An empty sink. -/
def empty (room : Nat) (whenFull : WhenFull) : Sink := ⟨[], room, whenFull⟩

/-- The error of a write that does not fit. -/
def error (s : Sink) : WriteError :=
  match s.whenFull with
  | .fail => .diskFull
  | .takeNothing => .nothingTaken

/-- Takes as many of the bytes as fit. -/
def take (s : Sink) (bytes : Bytes) : Sink :=
  { s with taken := s.taken ++ bytes.take s.room, room := s.room - bytes.length }

/-- Writes a text to its end, or as far as there is room. An empty text needs no room. -/
def put (t : Text) : SinkM Unit := do
  let s ← get
  set (s.take t.bytes)
  if s.room < t.bytes.length then throw s.error

/-- What a program leaves in a sink, and whether it came to its end. -/
def fill (s : Sink) (write : (Text → SinkM Unit) → SinkM Unit) : Except WriteError Unit × Sink :=
  (write put).run.run s

end Sink

end TokenCorpus
