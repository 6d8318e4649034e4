import TokenCorpus.Subtoken
import TokenCorpus.Encoding.Config

/-!
The tokens of a tree.

Tokens come from the leaves, in preorder. They are handed one by one to an action, which may refuse
a token and so end the visit.
-/

namespace TokenCorpus

/-- The tokens of a leaf. A leaf without text has none. -/
def leafTokens (config : EncodingConfig) (text : Text) : List Text :=
  if text = [] then [] else if config.subtokenize then subtokensOfText text else [text]

section

variable {m : Type → Type} [Monad m]

mutual

/-- Hands every token of the tree to `emit`, in order. -/
def Node.forTokens (config : EncodingConfig) (emit : Text → m Unit) : Node → m Unit
  | .identifier name => (leafTokens config name).forM emit
  | .literal value =>
    if config.includeLiterals then (leafTokens config value).forM emit else pure ()
  | .composite _ children => forTokensOfAll config emit children

/-- Hands every token of the trees to `emit`, tree by tree. -/
def forTokensOfAll (config : EncodingConfig) (emit : Text → m Unit) : List Node → m Unit
  | [] => pure ()
  | node :: nodes => do
    node.forTokens config emit
    forTokensOfAll config emit nodes

end

end

/-- The tokens of a tree, collected. -/
def Node.tokens (config : EncodingConfig) (node : Node) : List Text :=
  ((node.forTokens config fun token => modify (token :: ·) : StateM (List Text) Unit).run []).2.reverse

end TokenCorpus
