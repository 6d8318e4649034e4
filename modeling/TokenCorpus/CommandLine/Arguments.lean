import TokenCorpus.CommandLine.Setting

/-!
Reading command lines.

Arguments are read from left to right. Before the name of the command only switches may stand;
after it, the settings of the command in any order. The value of a field is looked at when the next
setting comes, not before: an argument that nobody knows is the greater fault.
-/

namespace TokenCorpus

/-- The form of an argument. -/
inductive Argument where
  /-- Two hyphens alone: what follows are no options. -/
  | separator
  /-- The name of a setting, with or without a value. -/
  | named (name : Text) (value : Option Text)
  /-- Letters of settings. -/
  | lettered (letters : Text)
  /-- Any other text. -/
  | bare
  deriving DecidableEq, Repr

/-- A name and what follows the first equals sign, if there is one. -/
def Argument.splitValue (t : Text) : Text × Option Text :=
  match t.dropWhile (· ≠ '=') with
  | [] => (t, none)
  | _ :: value => (t.takeWhile (· ≠ '='), some value)

/-- The form of a text. -/
def Argument.ofText (t : Text) : Argument :=
  match t with
  | ['-', '-'] => .separator
  | '-' :: '-' :: r => .named (splitValue r).1 (splitValue r).2
  | '-' :: c :: r => .lettered (c :: r)
  | _ => .bare

/-- The settings read so far, and a field that is not settled: its value is still to come, or has
come and was not looked at. -/
structure Reading where
  given : Given := {}
  pending : Option (Field × Option Text) := none
  deriving DecidableEq, Repr, Inhabited

namespace Reading

/-- The settings, with the value of the pending field. -/
def settle (r : Reading) : Except NoRun Given :=
  match r.pending with
  | none => .ok r.given
  | some (_, none) => .error .valueInvalid
  | some (field, some value) => r.given.assign field value

/-- Reads a switch. -/
def switch (r : Reading) (switch : Switch) : Except NoRun Reading := do
  return ⟨← (← r.settle).turnOn switch, none⟩

/-- Reads a field, with its value if that is in the same argument. -/
def field (r : Reading) (field : Field) (value : Option Text) : Except NoRun Reading := do
  let given ← r.settle
  match value with
  | some value => return ⟨← given.assign field value, none⟩
  | none => return ⟨given, some (field, none)⟩

/-- Reads a setting given by its name. -/
def named (r : Reading) (offered : List Setting) (name : Text) (value : Option Text) :
    Except NoRun Reading :=
  match Setting.named? offered name, value with
  | none, _ => .error .argumentUnknown
  | some (.switch s), none => r.switch s
  | some (.switch _), some _ => .error .needlessValue
  | some (.field f), value => r.field f value

/-- The value that follows the letter of a field in the same argument. An equals sign between them
is not part of it. -/
def attached? (rest : Text) : Option Text :=
  match rest with
  | [] => none
  | '=' :: value => some value
  | value => some value

/-- Reads settings given by their letters. -/
def lettered (r : Reading) (offered : List Setting) : Text → Except NoRun Reading
  | [] => .ok r
  | c :: rest =>
    match Setting.lettered? offered c with
    | none => .error .argumentUnknown
    | some (.switch s) => do lettered (← r.switch s) offered rest
    | some (.field f) => r.field f (attached? rest)

/-- Reads the operand. There is only one. -/
def operand (r : Reading) (value : Text) : Except NoRun Reading := do
  if r.given.operand.isSome || r.pending.any (·.1 = .operand) then throw .argumentUnknown
  return ⟨← r.settle, some (.operand, some value)⟩

/-- Reads a text that is no option: the value that a field waits for, or the operand. -/
def bare (r : Reading) (value : Text) : Except NoRun Reading :=
  match r.pending with
  | some (field, none) => .ok ⟨r.given, some (field, some value)⟩
  | _ => r.operand value

/-- Reads the arguments of a command. -/
def arguments (r : Reading) (offered : List Setting) : List Text → Except NoRun Reading
  | [] => .ok r
  | t :: rest =>
    match Argument.ofText t with
    | .separator => rest.foldlM operand r
    | .named name value => do arguments (← r.named offered name value) offered rest
    | .lettered letters => do arguments (← r.lettered offered letters) offered rest
    | .bare => do arguments (← r.bare t) offered rest

end Reading

namespace Invocation

/-- The settings that may stand before the name of the command. -/
def leading : List Setting := Verb.common ++ [.switch .version]

/-- The name of the command that shows help. -/
def helpName : Text := "help".toList

/-- What comes of asking for help about what the arguments name. -/
def helpAbout : List Text → NoRun
  | [] => .help
  | [t] => if t = helpName ∨ (Verb.named? t).isSome then .help else .commandUnknown
  | _ => .commandUnknown

/-- Reads what stands before the name of the command, and the name. What is left are the arguments
of the command. -/
def readVerb (r : Reading) : List Text → Except NoRun (Given × Option (Verb × List Text))
  | [] => do return (← r.settle, none)
  | t :: rest =>
    match Argument.ofText t with
    | .separator =>
      match rest with
      | [] => do return (← r.settle, none)
      | t :: _ =>
        .error (if t = helpName ∨ (Verb.named? t).isSome then .argumentUnknown else .commandUnknown)
    | .named name value => do readVerb (← r.named leading name value) rest
    | .lettered letters => do readVerb (← r.lettered leading letters) rest
    | .bare =>
      if t = helpName then .error (helpAbout rest)
      else
        match Verb.named? t with
        | none => .error .commandUnknown
        | some verb => do return (← r.settle, some (verb, rest))

/-- What a command line asks for. How much to tell may be said before the name of the command and
after it; what is said after it counts. -/
def ofArguments (arguments : List Text) : Except NoRun Invocation := do
  let (before, call) ← readVerb {} arguments
  match call with
  | none => throw (if before = {} then .nothingGiven else .commandMissing)
  | some (verb, rest) =>
    let after ← (← (← Reading.arguments {} verb.offered rest).settle).agreed
    let command ← verb.command after
    let before ← before.agreed
    return ⟨command, if after.verbosity = 0 then before.verbosity else after.verbosity,
      before.quiet || after.quiet⟩

end Invocation

end TokenCorpus
