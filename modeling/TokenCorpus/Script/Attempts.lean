import TokenCorpus.Text

/-!
What a parser tried, and how far it came.

A rejected script is reported at the furthest place where some form was looked for, with the forms
looked for there. A place is known by the number of characters left, so the furthest place has the
fewest.
-/

namespace TokenCorpus.Script

/-- The forms that a reader can be told to expect, in the order in which they are listed. -/
inductive Expected where
  | endOfInput
  | program
  | list
  | block
  | quote
  | spread
  | number
  | string
  | boolean
  | symbol
  deriving DecidableEq, Repr, Inhabited

namespace Expected

/-- All forms in listing order. -/
def all : List Expected :=
  [endOfInput, program, list, block, quote, spread, number, string, boolean, symbol]

/-- The name of a form in messages. -/
def name : Expected → String
  | endOfInput => "EOI"
  | program => "program"
  | list => "list"
  | block => "block"
  | quote => "quote"
  | spread => "spread_arg"
  | number => "number"
  | string => "string"
  | boolean => "boolean"
  | symbol => "symbol"

/-- Names in a row: commas, and "or" before the last of several. -/
def enumerate : List String → String
  | [] => ""
  | [a] => a
  | [a, b] => a ++ " or " ++ b
  | names => ", ".intercalate names.dropLast ++ ", or " ++ names.getLastD ""

end Expected

/-- The furthest place reached so far and the forms that failed there, oldest first. -/
structure Attempts where
  /-- The number of characters left at the furthest place. -/
  left : Nat
  /-- The forms that failed at the furthest place. -/
  failed : List Expected
  deriving DecidableEq, Repr, Inhabited

namespace Attempts

/-- Nothing tried yet: the furthest place is the start of `s`. -/
def start (s : Text) : Attempts := ⟨s.length, []⟩

/-- How many failures are listed for the place with `left` characters left. -/
def countAt (a : Attempts) (left : Nat) : Nat := if a.left = left then a.failed.length else 0

/-- Notes that `form`, looked for with `left` characters left, has failed. `before` is what had been
tried when the form was begun.

A form that fails where its parts failed stands for them, unless exactly one part was listed, which
then says more than the form. A form whose parts came further adds nothing. -/
def note (a : Attempts) (form : Expected) (left : Nat) (before : Attempts) : Attempts :=
  let known := before.countAt left
  if a.countAt left = known + 1 then a
  else if left = a.left then ⟨left, a.failed.take known ++ [form]⟩
  else if left < a.left then ⟨left, [form]⟩
  else a

/-- The forms expected at the furthest place, each once, in listing order. -/
def expected (a : Attempts) : List Expected := Expected.all.filter (· ∈ a.failed)

/-- The message for a rejected script. -/
def message (a : Attempts) : String :=
  "expected " ++ Expected.enumerate (a.expected.map Expected.name)

end Attempts

end TokenCorpus.Script
