import TokenCorpus.Text

/-!
Parse errors: why a source text has no tree, and where.
-/

namespace TokenCorpus

/-- A place in a source text that its parser refused. The place is `length` bytes from the byte
`offset` on. -/
structure ParseError where
  path : Text
  source : Text
  detail : Text
  offset : Nat
  length : Nat
  help : Option Text
  deriving DecidableEq, Repr, Inhabited

namespace ParseError

/-- The code under which parse errors are listed. -/
def code : String := "sutra_corpus::parse"

/-- The error in one line. -/
def message (e : ParseError) : Text :=
  "Parse error in ".toList ++ e.path ++ ": ".toList ++ e.detail

/-- An error without advice. -/
def plain (path source detail : Text) (offset length : Nat) : ParseError :=
  ⟨path, source, detail, offset, length, none⟩

/-- The same error with advice. -/
def withHelp (e : ParseError) (help : Text) : ParseError := { e with help := some help }

end ParseError


end TokenCorpus
