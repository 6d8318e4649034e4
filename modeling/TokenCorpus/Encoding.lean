import TokenCorpus.Tokens

/-!
The two encodings of a tree, written piece by piece.

The flat encoding is the row of tokens, one space between neighbours. The tree encoding wraps each
composite node in parentheses and puts one space after each leaf; a leaf cut into subtokens is
wrapped in brackets. A writer takes one piece of text at a time and may refuse it, which ends the
encoding there.
-/

namespace TokenCorpus

section

variable {m : Type → Type} [Monad m]

/-- Writes a token, after a space unless it is the first. The state says whether a token has been
written. -/
def putToken (put : Text → m Unit) (token : Text) : StateT Bool m Unit := do
  if ← get then put [' ']
  put token
  set true

/-- Writes the flat encoding. -/
def writeFlat (config : EncodingConfig) (put : Text → m Unit) (node : Node) : m Unit :=
  (node.forTokens config (putToken put)).run' false

/-- Writes a composite node without children. -/
def putEmpty (put : Text → m Unit) : m Unit := do
  put ['(']
  put [')']

/-- Writes a leaf of the tree encoding. A leaf without text looks like an empty composite node. -/
def putLeaf (config : EncodingConfig) (put : Text → m Unit) (text : Text) : m Unit := do
  if text = [] then putEmpty put
  else
    if config.subtokenize then
      put ['[']
      put (Text.spaced (subtokensOfText text))
      put [']']
    else
      put text
    put [' ']

mutual

/-- Writes the tree encoding. -/
def writeTree (config : EncodingConfig) (put : Text → m Unit) : Node → m Unit
  | .identifier name => putLeaf config put name
  | .literal value => if config.includeLiterals then putLeaf config put value else putEmpty put
  | .composite _ children => do
    put ['(']
    writeTrees config put children
    put [')']

/-- Writes the tree encodings of all nodes in a row. -/
def writeTrees (config : EncodingConfig) (put : Text → m Unit) : List Node → m Unit
  | [] => pure ()
  | node :: nodes => do
    writeTree config put node
    writeTrees config put nodes

end

/-- Writes the encoding that `config` asks for. -/
def encode (config : EncodingConfig) (put : Text → m Unit) (node : Node) : m Unit :=
  match config.mode with
  | .flat => writeFlat config put node
  | .tree => writeTree config put node

end

/-- All that a program writes, as one text. -/
def transcript (write : (Text → StateM (List Text) Unit) → StateM (List Text) Unit) : Text :=
  ((write fun piece => modify (piece :: ·)).run []).2.reverse.flatten

/-- The encoding of a tree as a text. -/
def Node.encoding (config : EncodingConfig) (node : Node) : Text :=
  transcript (encode config · node)

end TokenCorpus
