import TokenCorpus.Tree

/-!
How trees are encoded.
-/

namespace TokenCorpus

/-- The two encodings. -/
inductive EncodingMode where
  /-- Leaf tokens in a row. -/
  | flat
  /-- Leaf tokens nested in parentheses after the shape of the tree. -/
  | tree
  deriving DecidableEq, Repr, Inhabited

/-- The name of a mode in reports. -/
def EncodingMode.name : EncodingMode → String
  | flat => "flat"
  | tree => "tree"

/-- The choices of an encoding. -/
structure EncodingConfig where
  /-- Whether literals appear in the output. -/
  includeLiterals : Bool := true
  mode : EncodingMode := .flat
  /-- Whether each leaf is cut into subtokens. -/
  subtokenize : Bool := false
  deriving DecidableEq, Repr, Inhabited

namespace EncodingConfig

/-- The flat encoding of whole tokens. -/
def flat (includeLiterals : Bool) : EncodingConfig := ⟨includeLiterals, .flat, false⟩

/-- The tree encoding of whole tokens. -/
def tree (includeLiterals : Bool) : EncodingConfig := ⟨includeLiterals, .tree, false⟩

/-- The same encoding with or without subtokens. -/
def subtokenized (config : EncodingConfig) (subtokenize : Bool) : EncodingConfig :=
  { config with subtokenize }

end EncodingConfig

/-- The text that a node puts into the output as a leaf. A suppressed literal has none, and is
treated like a composite node without children. -/
def Node.leafText? (config : EncodingConfig) : Node → Option Text
  | .identifier name => some name
  | .literal value => if config.includeLiterals then some value else none
  | .composite _ _ => none

end TokenCorpus
