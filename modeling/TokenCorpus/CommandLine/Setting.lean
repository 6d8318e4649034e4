import TokenCorpus.CommandLine.Command
import TokenCorpus.Corpus.Options
import TokenCorpus.Vocabulary

/-!
Settings: what can be given on a command line besides the command.

Switches are given or not; fields have a value. A switch or field is given at most once, except
that the switch for more detail counts.
-/

namespace TokenCorpus

/-- A setting without a value. -/
inductive Switch where
  | help
  | version
  | verbose
  | quiet
  | tree
  | subtokenize
  deriving DecidableEq, Repr, Inhabited

namespace Switch

/-- The name of a switch, given after two hyphens. -/
def name : Switch → String
  | help => "help"
  | version => "version"
  | verbose => "verbose"
  | quiet => "quiet"
  | tree => "tree"
  | subtokenize => "subtokenize"

/-- The letter of a switch, given after one hyphen. -/
def letter? : Switch → Option Char
  | help => some 'h'
  | version => some 'V'
  | verbose => some 'v'
  | quiet => some 'q'
  | tree | subtokenize => none

end Switch

/-- A setting with a value. -/
inductive Field where
  /-- The argument that is no option: a directory or a file to read. -/
  | operand
  | output
  | literals
  | extension
  | manifest
  | minCount
  deriving DecidableEq, Repr, Inhabited

namespace Field

/-- The name of a field, given after two hyphens. The operand has none. -/
def name? : Field → Option String
  | operand => none
  | output => some "out"
  | literals => some "literals"
  | extension => some "ext"
  | manifest => some "manifest"
  | minCount => some "min-count"

/-- The letter of a field, given after one hyphen. -/
def letter? : Field → Option Char
  | output => some 'o'
  | operand | literals | extension | manifest | minCount => none

end Field

/-- A switch or a field. -/
inductive Setting where
  | switch (switch : Switch)
  | field (field : Field)
  deriving DecidableEq, Repr

namespace Setting

/-- The name of a setting. -/
def name? : Setting → Option String
  | switch s => some s.name
  | field f => f.name?

/-- The letter of a setting. -/
def letter? : Setting → Option Char
  | switch s => s.letter?
  | field f => f.letter?

/-- The setting with a name, among those offered. -/
def named? (offered : List Setting) (name : Text) : Option Setting :=
  offered.find? (·.name?.any (·.toList = name))

/-- The setting with a letter, among those offered. -/
def lettered? (offered : List Setting) (letter : Char) : Option Setting :=
  offered.find? (·.letter? = some letter)

end Setting

/-- The settings given so far. -/
structure Given where
  verbosity : Nat := 0
  quiet : Bool := false
  tree : Bool := false
  subtokenize : Bool := false
  operand : Option Text := none
  output : Option Text := none
  literals : Option Bool := none
  extension : Option Text := none
  manifest : Option Text := none
  minCount : Option Nat := none
  deriving DecidableEq, Repr, Inhabited

/-- The bound of numbers on the command line. -/
def numberBound : Nat := 0x10000000000000000

/-- The highest verbosity. -/
def maxVerbosity : Nat := 255

namespace Given

/-- A path, which is not empty. -/
def path (value : Text) : Except NoRun Text :=
  if value = [] then .error .valueInvalid else .ok value

/-- A truth value. -/
def truth (value : Text) : Except NoRun Bool :=
  if value = "true".toList then .ok true
  else if value = "false".toList then .ok false
  else .error .valueInvalid

/-- A natural number in decimal, with or without a plus sign before it. -/
def number (value : Text) : Except NoRun Nat :=
  let digits := if value.head? = some '+' then value.tail else value
  match Text.decimal? digits with
  | some n => if n < numberBound then .ok n else .error .numberInvalid
  | none => .error .numberInvalid

/-- A value for what has none yet. -/
def once {α : Type} (before : Option α) (value : Except NoRun α) : Except NoRun (Option α) :=
  if before.isSome then .error .conflict else value.map some

/-- A switch that is not on yet, switched on. -/
def turnedOn (before : Bool) : Except NoRun Bool :=
  if before then .error .conflict else .ok true

/-- The settings with one more switch. -/
def turnOn (g : Given) : Switch → Except NoRun Given
  | .help => .error .help
  | .version => .error .version
  | .verbose => .ok { g with verbosity := min maxVerbosity (g.verbosity + 1) }
  | .quiet => do return { g with quiet := ← turnedOn g.quiet }
  | .tree => do return { g with tree := ← turnedOn g.tree }
  | .subtokenize => do return { g with subtokenize := ← turnedOn g.subtokenize }

/-- The settings with the value of one more field. -/
def assign (g : Given) (field : Field) (value : Text) : Except NoRun Given := do
  match field with
  | .operand => return { g with operand := ← once g.operand (path value) }
  | .output => return { g with output := ← once g.output (path value) }
  | .literals => return { g with literals := ← once g.literals (truth value) }
  | .extension => return { g with extension := ← once g.extension (.ok value) }
  | .manifest => return { g with manifest := ← once g.manifest (path value) }
  | .minCount => return { g with minCount := ← once g.minCount (number value) }

/-- The settings, unless they ask for more detail and for silence. -/
def agreed (g : Given) : Except NoRun Given :=
  if g.quiet ∧ 0 < g.verbosity then .error .conflict else .ok g

/-- The encoding that the settings ask for. -/
def encoding (g : Given) (mode : EncodingMode) : EncodingConfig :=
  ⟨g.literals.getD true, mode, g.subtokenize⟩

end Given

/-- The name by which a command is called. -/
inductive Verb where
  | flatDump
  | treeDump
  | vocabulary
  | display
  deriving DecidableEq, Repr, Inhabited

namespace Verb

/-- The text of a name. -/
def name : Verb → String
  | flatDump => "flat-dump"
  | treeDump => "tree-dump"
  | vocabulary => "vocab"
  | display => "show"

/-- The command with a name. -/
def named? (name : Text) : Option Verb :=
  [flatDump, treeDump, vocabulary, display].find? (·.name.toList = name)

/-- The settings that every command offers. -/
def common : List Setting := [.switch .verbose, .switch .quiet, .switch .help]

/-- The settings of a dump. -/
def dumpSettings : List Setting :=
  [.field .output, .field .literals, .field .extension, .field .manifest, .switch .subtokenize]

/-- The settings that a command offers. -/
def offered : Verb → List Setting
  | flatDump | treeDump => dumpSettings ++ common
  | vocabulary =>
    [.field .output, .field .minCount, .field .literals, .field .extension,
      .switch .subtokenize] ++ common
  | display => [.field .literals, .switch .tree, .switch .subtokenize] ++ common

/-- What a required setting was given. -/
def needed {α : Type} (value : Option α) : Except NoRun α :=
  match value with
  | some a => .ok a
  | none => .error .argumentMissing

/-- A dump in the given mode. -/
def dump (g : Given) (mode : EncodingMode) : Except NoRun DumpCommand := do
  return ⟨← needed g.operand, ← needed g.output, g.encoding mode,
    g.extension.getD ({} : BuildOptions).extension, g.manifest⟩

/-- The command with the given settings. -/
def command (verb : Verb) (g : Given) : Except NoRun Command := do
  match verb with
  | flatDump => return .dump (← dump g .flat)
  | treeDump => return .dump (← dump g .tree)
  | vocabulary =>
    return .vocabulary ⟨← needed g.operand, ← needed g.output, g.encoding .flat,
      g.extension.getD ({} : BuildOptions).extension,
      g.minCount.getD Vocabulary.defaultMinCount⟩
  | display =>
    return .display ⟨← needed g.operand, g.encoding (if g.tree then .tree else .flat)⟩

end Verb

end TokenCorpus
