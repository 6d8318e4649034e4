import TokenCorpus.Text

/-!
Consoles that show whole lines.

What is put on a console is held back until its line ends, and is then shown together. A console
may have room for a limited number of bytes; what does not fit as a whole is not shown.
-/

namespace TokenCorpus

/-- How a console refuses. -/
inductive ConsoleError where
  /-- What lies behind the console is full. -/
  | noSpace
  /-- Nobody takes away what the console has shown. -/
  | wouldBlock
  deriving DecidableEq, Repr, Inhabited

/-- The wording of a refusal. -/
def ConsoleError.message : ConsoleError → String
  | noSpace => "No space left on device (os error 28)"
  | wouldBlock => "Resource temporarily unavailable (os error 11)"

/-- How many bytes a console still shows, and how it refuses more. -/
structure ConsoleLimit where
  room : Nat
  refusal : ConsoleError
  deriving DecidableEq, Repr, Inhabited

/-- A console: what it has shown, the line it holds back, and its limit if it has one. -/
structure Console where
  shown : Text := []
  line : Text := []
  limit : Option ConsoleLimit := none
  deriving DecidableEq, Repr, Inhabited

/-- Programs that put texts on a console and stop when it refuses. -/
abbrev ConsoleM := ExceptT ConsoleError (StateM Console)

namespace Console

/-- An empty console with the given limit. -/
def empty (limit : Option ConsoleLimit) : Console := { limit }

/-- The part of a text up to its last line end, and the part after it. -/
def cutLines (t : Text) : Text × Text :=
  ((t.reverse.dropWhile (· ≠ '\n')).reverse, (t.reverse.takeWhile (· ≠ '\n')).reverse)

theorem cutLines_append (t : Text) : (cutLines t).1 ++ (cutLines t).2 = t := by
  rw [cutLines, ← List.reverse_append, List.takeWhile_append_dropWhile, List.reverse_reverse]

/-- Shows a text at once, if all of it fits. -/
def show? (c : Console) (t : Text) : Except ConsoleError Console :=
  match c.limit with
  | none => .ok { c with shown := c.shown ++ t }
  | some limit =>
    if t.byteLength ≤ limit.room then
      .ok { c with
        shown := c.shown ++ t
        limit := some { limit with room := limit.room - t.byteLength } }
    else
      .error limit.refusal

/-- Puts a text on the console. -/
def put (t : Text) : ConsoleM Unit := do
  let c ← get
  match cutLines t with
  | ([], begun) => set { c with line := c.line ++ begun }
  | (ended, begun) =>
    match c.show? (c.line ++ ended) with
    | .ok shown => set { shown with line := begun }
    | .error e => throw e

/-- Puts texts on the console one after the other. -/
def putAll (c : Console) (texts : List Text) : Except ConsoleError Unit × Console :=
  (texts.forM put : ConsoleM Unit).run.run c

end Console

end TokenCorpus
