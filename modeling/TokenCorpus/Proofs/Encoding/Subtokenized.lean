import TokenCorpus.Proofs.Encoding.Pieces
import TokenCorpus.Proofs.Text.Words

/-!
Subtokens of flat documents.

A flat document may be cut into subtokens before it is written, leaf by leaf, or afterwards, word by
word. Both give the same document. A leaf may hold blanks or consist of them; it then adds as many
words to the document as it has itself, and one without text adds none.
-/

namespace TokenCorpus

/-- The subtokens of texts with spaces between them are those of each text. -/
theorem subtokensOfText_spaced (pieces : List Text) :
    subtokensOfText (Text.spaced pieces) = pieces.flatMap subtokensOfText := by
  rw [subtokensOfText, Text.words_spaced, List.flatMap_assoc]
  rfl

theorem leafTokens_subtokenized (config : EncodingConfig) (text : Text) :
    leafTokens (config.subtokenized true) text =
      (leafTokens (config.subtokenized false) text).flatMap subtokensOfText := by
  rw [leafTokens, leafTokens]
  split
  · rfl
  · exact (List.flatMap_singleton subtokensOfText text).symm

mutual

/-- The tokens of a tree that is cut into subtokens are the subtokens of its whole tokens. -/
theorem Node.tokenList_subtokenized (config : EncodingConfig) :
    (node : Node) → node.tokenList (config.subtokenized true) =
      (node.tokenList (config.subtokenized false)).flatMap subtokensOfText
  | .identifier name => leafTokens_subtokenized config name
  | .literal value => by
    rw [Node.tokenList, Node.tokenList]
    cases hliterals : config.includeLiterals with
    | false => simp [EncodingConfig.subtokenized, hliterals]
    | true =>
      simp only [EncodingConfig.subtokenized, hliterals, ↓reduceIte]
      exact leafTokens_subtokenized config value
  | .composite _ children => tokenListAll_subtokenized config children

theorem tokenListAll_subtokenized (config : EncodingConfig) :
    (nodes : List Node) → tokenListAll (config.subtokenized true) nodes =
      (tokenListAll (config.subtokenized false) nodes).flatMap subtokensOfText
  | [] => rfl
  | node :: nodes => by
    rw [tokenListAll, tokenListAll, List.flatMap_append, Node.tokenList_subtokenized config node,
      tokenListAll_subtokenized config nodes]

end

/-- The flat encoding in subtokens is the row of the subtokens of the flat encoding in whole
tokens. -/
theorem Node.encoding_flat_subtokenized (includeLiterals : Bool) (node : Node) :
    node.encoding ((EncodingConfig.flat includeLiterals).subtokenized true) =
      Text.spaced (subtokensOfText (node.encoding (EncodingConfig.flat includeLiterals))) := by
  rw [encoding_flat rfl, encoding_flat rfl, tokenList_subtokenized, subtokensOfText_spaced]
  rfl

end TokenCorpus
