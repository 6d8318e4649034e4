import TokenCorpus.Encoding.Config
import TokenCorpus.Json.Scan

/-!
Encoding choices as JSON.

They are written as an object with a field for each choice. They are read from such an object, with
the fields in any order, each at most once and unknown ones passed over, or from an array of the
choices in field order. Only the choice of subtokens may be left out.
-/

namespace TokenCorpus

namespace EncodingConfig

/-- The choices as a JSON value. -/
def toJson (config : EncodingConfig) : Json :=
  .object [("include_literals".toList, .bool config.includeLiterals),
    ("mode".toList, .string config.mode.name.toList),
    ("subtokenize".toList, .bool config.subtokenize)]

end EncodingConfig

namespace ConfigText

open Json

/-- The mode with a name. -/
def mode? (name : Text) : Option EncodingMode :=
  if name = "flat".toList then some .flat
  else if name = "tree".toList then some .tree
  else none

/-- A mode: its name, or an object with the name alone, of value null. -/
def readMode? (s : Text) : Option (EncodingMode × Text) :=
  match s with
  | '\x7b' :: r => do
    let (name, afterName) ← string? (skipBlank r)
    let mode ← mode? name
    match skipBlank afterName with
    | ':' :: t =>
      match ← (skipWord? "null".toList (skipBlank t)).map skipBlank with
      | '\x7d' :: rest => return (mode, rest)
      | _ => none
    | _ => none
  | _ => do
    let (name, rest) ← string? s
    return (← mode? name, rest)

/-- The choices read so far. -/
structure Given where
  includeLiterals : Option Bool := none
  mode : Option EncodingMode := none
  subtokenize : Option Bool := none

/-- The choices, if those that have to be there are. -/
def Given.complete? (g : Given) : Option EncodingConfig := do
  return ⟨← g.includeLiterals, ← g.mode, g.subtokenize.getD false⟩

/-- Reads the value of a field. A known field that was read before is refused. -/
def readField? (g : Given) (name s : Text) : Option (Given × Text) :=
  if name = "include_literals".toList then do
    let (b, rest) ← bool? s
    if g.includeLiterals.isSome then none else return ({ g with includeLiterals := some b }, rest)
  else if name = "mode".toList then do
    let (m, rest) ← readMode? s
    if g.mode.isSome then none else return ({ g with mode := some m }, rest)
  else if name = "subtokenize".toList then do
    let (b, rest) ← bool? s
    if g.subtokenize.isSome then none else return ({ g with subtokenize := some b }, rest)
  else
    (skip? s).map (g, ·)

/-- Reads fields up to the closing brace. `count` bounds their number. -/
def readFields? (count : Nat) (g : Given) (s : Text) : Option (Given × Text) :=
  match count with
  | 0 => none
  | count + 1 => do
    let (name, afterName) ← string? s
    match skipBlank afterName with
    | ':' :: t =>
      let (g, rest) ← readField? g name (skipBlank t)
      match skipBlank rest with
      | ',' :: t => readFields? count g (skipBlank t)
      | '\x7d' :: t => return (g, t)
      | _ => none
    | _ => none

/-- Reads the choices from an array, after its opening bracket. -/
def readItems? (s : Text) : Option (Given × Text) := do
  let (literals, afterLiterals) ← bool? (skipBlank s)
  match skipBlank afterLiterals with
  | ',' :: t =>
    let (mode, afterMode) ← readMode? (skipBlank t)
    match skipBlank afterMode with
    | ']' :: rest => return (⟨literals, mode, none⟩, rest)
    | ',' :: t =>
      let (subtokenize, afterAll) ← bool? (skipBlank t)
      match skipBlank afterAll with
      | ']' :: rest => return (⟨literals, mode, subtokenize⟩, rest)
      | _ => none
    | _ => none
  | _ => none

end ConfigText

open ConfigText Json in
/-- The choices that a JSON text stands for. -/
def EncodingConfig.ofJson? (s : Text) : Option EncodingConfig := do
  let (choices, rest) ←
    match skipBlank s with
    | '\x7b' :: r =>
      match skipBlank r with
      | '\x7d' :: t => some ({}, t)
      | t => readFields? s.length {} t
    | '[' :: r => readItems? r
    | _ => none
  if skipBlank rest = [] then choices.complete? else none

end TokenCorpus
