import Mathlib.Control.Lawful
import TokenCorpus.Encoding

/-!
What an encoding hands to its writer, whatever the writer does with it.

The tokens of a tree, and the pieces that its encodings write, are lists. Visiting a tree with an
action is running the action over such a list, in every monad; a writer that refuses a piece ends
both in the same place.
-/

namespace TokenCorpus

mutual

/-- The tokens of a tree: those of its leaves, from left to right. -/
def Node.tokenList (config : EncodingConfig) : Node → List Text
  | .identifier name => leafTokens config name
  | .literal value => if config.includeLiterals then leafTokens config value else []
  | .composite _ children => tokenListAll config children

def tokenListAll (config : EncodingConfig) : List Node → List Text
  | [] => []
  | node :: nodes => node.tokenList config ++ tokenListAll config nodes

end

/-- The pieces of a row of tokens: a space before each token but the first. -/
def flatPieces : (written : Bool) → List Text → List Text
  | _, [] => []
  | written, token :: tokens =>
    (if written then [[' ']] else []) ++ token :: flatPieces true tokens

def emptyPieces : List Text := [['('], [')']]

def leafPieces (config : EncodingConfig) (text : Text) : List Text :=
  if text = [] then emptyPieces
  else
    (if config.subtokenize then [['['], Text.spaced (subtokensOfText text), [']']] else [text]) ++
      [[' ']]

mutual

/-- The pieces of the tree encoding. -/
def Node.treePieces (config : EncodingConfig) : Node → List Text
  | .identifier name => leafPieces config name
  | .literal value => if config.includeLiterals then leafPieces config value else emptyPieces
  | .composite _ children => ['('] :: (treePiecesAll config children ++ [[')']])

def treePiecesAll (config : EncodingConfig) : List Node → List Text
  | [] => []
  | node :: nodes => node.treePieces config ++ treePiecesAll config nodes

end

/-- The pieces of the encoding that `config` asks for. -/
def Node.pieces (config : EncodingConfig) (node : Node) : List Text :=
  match config.mode with
  | .flat => flatPieces false (node.tokenList config)
  | .tree => node.treePieces config

mutual

theorem Node.forTokens_eq_forM {m : Type → Type} [Monad m] [LawfulMonad m]
    (config : EncodingConfig) (emit : Text → m Unit) :
    (node : Node) → node.forTokens config emit = forM (node.tokenList config) emit
  | .identifier name => by rw [Node.forTokens, Node.tokenList, List.forM_eq_forM]
  | .literal value => by
    rw [Node.forTokens, Node.tokenList]
    split <;> rfl
  | .composite kind children => by
    rw [Node.forTokens, Node.tokenList, forTokensOfAll_eq_forM]

theorem forTokensOfAll_eq_forM {m : Type → Type} [Monad m] [LawfulMonad m]
    (config : EncodingConfig) (emit : Text → m Unit) :
    (nodes : List Node) → forTokensOfAll config emit nodes = forM (tokenListAll config nodes) emit
  | [] => rfl
  | node :: nodes => by
    rw [forTokensOfAll, tokenListAll, List.forM_append, Node.forTokens_eq_forM,
      forTokensOfAll_eq_forM]

end

section

variable {m : Type → Type} [Monad m] [LawfulMonad m]

/-- Writing tokens with spaces between them is writing their pieces. -/
theorem run'_forM_putToken (put : Text → m Unit) (tokens : List Text) (written : Bool) :
    StateT.run' (forM tokens (putToken put)) written = forM (flatPieces written tokens) put := by
  induction tokens generalizing written with
  | nil => simp [flatPieces, StateT.run'_eq]
  | cons token tokens ih =>
    have hrest := ih true
    simp only [StateT.run'_eq] at hrest
    cases written <;> simp [flatPieces, putToken, StateT.run'_eq, hrest]

theorem writeFlat_eq_forM (config : EncodingConfig) (put : Text → m Unit) (node : Node) :
    writeFlat config put node = forM (flatPieces false (node.tokenList config)) put := by
  rw [writeFlat, Node.forTokens_eq_forM, run'_forM_putToken]

theorem putEmpty_eq_forM (put : Text → m Unit) : putEmpty put = forM emptyPieces put := by
  simp [putEmpty, emptyPieces]

theorem putLeaf_eq_forM (config : EncodingConfig) (put : Text → m Unit) (text : Text) :
    putLeaf config put text = forM (leafPieces config text) put := by
  unfold putLeaf leafPieces
  split
  · exact putEmpty_eq_forM put
  · split <;> simp

mutual

theorem writeTree_eq_forM (config : EncodingConfig) (put : Text → m Unit) :
    (node : Node) → writeTree config put node = forM (node.treePieces config) put
  | .identifier name => by rw [writeTree, Node.treePieces, putLeaf_eq_forM]
  | .literal value => by
    rw [writeTree, Node.treePieces]
    split
    · rw [putLeaf_eq_forM]
    · rw [putEmpty_eq_forM]
  | .composite kind children => by
    rw [writeTree, Node.treePieces, writeTrees_eq_forM]
    simp

theorem writeTrees_eq_forM (config : EncodingConfig) (put : Text → m Unit) :
    (nodes : List Node) → writeTrees config put nodes = forM (treePiecesAll config nodes) put
  | [] => rfl
  | node :: nodes => by
    rw [writeTrees, treePiecesAll, List.forM_append, writeTree_eq_forM, writeTrees_eq_forM]

end

theorem encode_eq_forM (config : EncodingConfig) (put : Text → m Unit) (node : Node) :
    encode config put node = forM (node.pieces config) put := by
  cases hmode : config.mode with
  | flat => simp only [encode, Node.pieces, hmode, writeFlat_eq_forM]
  | tree => simp only [encode, Node.pieces, hmode, writeTree_eq_forM]

end

/-! ## Collected -/

theorem run_forM_push (pieces seen : List Text) :
    ((forM pieces fun piece => modify (piece :: ·) : StateM (List Text) Unit).run seen).2 =
      pieces.reverse ++ seen := by
  induction pieces generalizing seen with
  | nil => rfl
  | cons piece pieces ih =>
    rw [List.forM_cons, List.reverse_cons, List.append_assoc]
    exact ih (piece :: seen)

theorem Node.tokens_eq_tokenList (config : EncodingConfig) (node : Node) :
    node.tokens config = node.tokenList config := by
  rw [tokens, forTokens_eq_forM, run_forM_push, List.append_nil, List.reverse_reverse]

theorem Node.encoding_eq_flatten (config : EncodingConfig) (node : Node) :
    node.encoding config = (node.pieces config).flatten := by
  rw [encoding, transcript, encode_eq_forM, run_forM_push, List.append_nil, List.reverse_reverse]

theorem flatten_flatPieces (tokens : List Text) :
    (flatPieces true tokens).flatten = tokens.flatMap ([' '] ++ ·) ∧
      (flatPieces false tokens).flatten = Text.spaced tokens := by
  have htrue : ∀ tokens, (flatPieces true tokens).flatten = tokens.flatMap ([' '] ++ ·) := by
    intro tokens
    induction tokens with
    | nil => rfl
    | cons token tokens ih => simp [flatPieces, ih]
  refine ⟨htrue tokens, ?_⟩
  cases tokens with
  | nil => rfl
  | cons token tokens =>
    simp only [flatPieces, Bool.false_eq_true, ↓reduceIte, List.nil_append, List.flatten_cons, htrue]
    induction tokens generalizing token with
    | nil => simp
    | cons next tokens ih =>
      rw [Text.spaced_cons_cons, ← ih next]
      simp

/-- The flat encoding of a tree is its tokens with one space between neighbours. -/
theorem Node.encoding_flat {config : EncodingConfig} (hmode : config.mode = .flat) (node : Node) :
    node.encoding config = Text.spaced (node.tokenList config) := by
  rw [encoding_eq_flatten, pieces, hmode]
  exact (flatten_flatPieces _).2

/-- The text of the tree encoding of a row of nodes. -/
theorem Node.encoding_tree {config : EncodingConfig} (hmode : config.mode = .tree) (node : Node) :
    node.encoding config = (node.treePieces config).flatten := by
  rw [encoding_eq_flatten, pieces, hmode]

end TokenCorpus
