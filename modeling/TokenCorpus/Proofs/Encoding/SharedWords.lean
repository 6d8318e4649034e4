import TokenCorpus.Proofs.Encoding.Visiting
import TokenCorpus.Proofs.Text.Words

/-!
The words that both encodings share.

With a space in the place of each bracket, the flat and the tree encoding of a tree have the same
words in the same order: those that its tokens fall into. This holds of leaves with any text, since
both encodings keep a blank or a bracket between any two leaves.
-/

namespace TokenCorpus

namespace Text

/-- A space in the place of a bracket, and any other character as it is. -/
def unbracket (c : Char) : Char := if c ∈ ['(', ')', '[', ']'] then ' ' else c

/-- The text with a space in the place of each bracket. -/
def unbracketed (t : Text) : Text := t.map unbracket

/-- The words of a text without its brackets. -/
def unbracketedWords (t : Text) : List Text := t.unbracketed.words

theorem unbracketedWords_nil : unbracketedWords [] = [] := words_of_dropWhile_nil rfl

/-- A text falls into words at a blank, and at a bracket. -/
theorem unbracketedWords_append (s t : Text) {c : Char} (hc : isBlank (unbracket c)) :
    unbracketedWords (s ++ c :: t) = unbracketedWords s ++ unbracketedWords t := by
  rw [unbracketedWords, unbracketed, List.map_append, List.map_cons, words_append_blank _ _ hc]
  rfl

theorem unbracketedWords_cons (t : Text) {c : Char} (hc : isBlank (unbracket c)) :
    unbracketedWords (c :: t) = unbracketedWords t := by
  have hfront := unbracketedWords_append [] t hc
  rw [unbracketedWords_nil] at hfront
  exact hfront

theorem unbracketedWords_spaced (pieces : List Text) :
    unbracketedWords (spaced pieces) = pieces.flatMap unbracketedWords := by
  induction pieces with
  | nil => exact unbracketedWords_nil
  | cons piece pieces ih =>
    cases pieces with
    | nil => simp
    | cons next pieces =>
      rw [List.flatMap_cons, ← ih, spaced_cons_cons, unbracketedWords_append _ _ (by decide)]

end Text

open Text

theorem unbracketedWords_emptyPieces (rest : Text) :
    unbracketedWords (emptyPieces.flatten ++ rest) = unbracketedWords rest := by
  change unbracketedWords ('(' :: ')' :: rest) = _
  rw [unbracketedWords_cons _ (by decide), unbracketedWords_cons _ (by decide)]

/-- The words of a leaf are those of its tokens. The space behind it parts it from what comes next. -/
theorem unbracketedWords_leafPieces (config : EncodingConfig) (text rest : Text) :
    unbracketedWords ((leafPieces config text).flatten ++ rest) =
      (leafTokens config text).flatMap unbracketedWords ++ unbracketedWords rest := by
  rw [leafPieces, leafTokens]
  split
  · exact unbracketedWords_emptyPieces rest
  · cases config.subtokenize with
    | true =>
      have hpieces : ([['['], spaced (subtokensOfText text), [']']] ++ [[' ']]).flatten ++ rest =
          '[' :: (spaced (subtokensOfText text) ++ ']' :: ' ' :: rest) := by simp
      rw [if_pos rfl, if_pos rfl, hpieces, unbracketedWords_cons _ (by decide),
        unbracketedWords_append _ _ (by decide), unbracketedWords_spaced,
        unbracketedWords_cons _ (by decide)]
    | false =>
      have hpieces : ([text] ++ [[' ']]).flatten ++ rest = text ++ ' ' :: rest := by simp
      rw [if_neg Bool.false_ne_true, if_neg Bool.false_ne_true, hpieces,
        unbracketedWords_append _ _ (by decide), List.flatMap_singleton]

mutual

/-- The words of a tree encoding are those of the tokens of the tree, whatever comes behind it. -/
theorem Node.unbracketedWords_treePieces (config : EncodingConfig) (rest : Text) :
    (node : Node) → unbracketedWords ((node.treePieces config).flatten ++ rest) =
      (node.tokenList config).flatMap unbracketedWords ++ unbracketedWords rest
  | .identifier name => unbracketedWords_leafPieces config name rest
  | .literal value => by
    rw [Node.treePieces, Node.tokenList]
    split
    · exact unbracketedWords_leafPieces config value rest
    · exact unbracketedWords_emptyPieces rest
  | .composite kind children => by
    have hpieces : ((Node.composite kind children).treePieces config).flatten ++ rest =
        '(' :: ((treePiecesAll config children).flatten ++ ')' :: rest) := by
      simp [Node.treePieces]
    rw [hpieces, unbracketedWords_cons _ (by decide),
      unbracketedWords_treePiecesAll config _ children, unbracketedWords_cons _ (by decide),
      Node.tokenList]

theorem unbracketedWords_treePiecesAll (config : EncodingConfig) (rest : Text) :
    (nodes : List Node) → unbracketedWords ((treePiecesAll config nodes).flatten ++ rest) =
      (tokenListAll config nodes).flatMap unbracketedWords ++ unbracketedWords rest
  | [] => rfl
  | node :: nodes => by
    rw [treePiecesAll, tokenListAll, List.flatten_append, List.append_assoc,
      Node.unbracketedWords_treePieces config _ node, unbracketedWords_treePiecesAll config _ nodes,
      List.flatMap_append, List.append_assoc]

end

/-- With spaces in the place of brackets, both encodings of a tree have the same words in the same
order. -/
theorem Node.words_unbracketed_encoding (includeLiterals subtokenize : Bool) (node : Node) :
    (node.encoding ⟨includeLiterals, .tree, subtokenize⟩).unbracketed.words =
      (node.encoding ⟨includeLiterals, .flat, subtokenize⟩).unbracketed.words := by
  have htree := node.unbracketedWords_treePieces ⟨includeLiterals, .tree, subtokenize⟩ []
  rw [List.append_nil, unbracketedWords_nil, List.append_nil, ← encoding_tree rfl] at htree
  have hflat := unbracketedWords_spaced (node.tokenList ⟨includeLiterals, .flat, subtokenize⟩)
  rw [← encoding_flat rfl] at hflat
  have htokens := node.tokenList_mode ⟨includeLiterals, .tree, subtokenize⟩ .flat
  calc unbracketedWords (node.encoding ⟨includeLiterals, .tree, subtokenize⟩)
      = (node.tokenList ⟨includeLiterals, .tree, subtokenize⟩).flatMap unbracketedWords := htree
    _ = (node.tokenList ⟨includeLiterals, .flat, subtokenize⟩).flatMap unbracketedWords := by
      rw [← htokens]
    _ = unbracketedWords (node.encoding ⟨includeLiterals, .flat, subtokenize⟩) := hflat.symm

/-- A bracket and a blank in the texts of leaves, and a leaf without text. -/
example : ((Node.composite .list [.identifier "a(b".toList, .literal "1 2".toList,
    .identifier []]).encoding (.tree true)).unbracketed.words =
      ["a".toList, "b".toList, "1".toList, "2".toList] := by decide +kernel

end TokenCorpus
