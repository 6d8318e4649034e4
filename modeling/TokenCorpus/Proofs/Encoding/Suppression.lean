import TokenCorpus.Encoding

/-!
Literals that are left out.

An encoding without literals reads nothing of a literal but that it is there. Trees that differ only
in the values of their literals are visited alike and written alike, in every monad: with any writer,
and also where the writer refuses a piece.
-/

namespace TokenCorpus

mutual

/-- A tree with the values of its literals taken out. -/
def Node.withoutValues : Node → Node
  | .identifier name => .identifier name
  | .literal _ => .literal []
  | .composite kind children => .composite kind (withoutValuesAll children)

/-- Trees with the values of their literals taken out. -/
def withoutValuesAll : List Node → List Node
  | [] => []
  | node :: nodes => node.withoutValues :: withoutValuesAll nodes

end

/-- Two trees differ at most in the values of their literals. -/
def Node.SameButLiterals (a b : Node) : Prop := a.withoutValues = b.withoutValues

instance (a b : Node) : Decidable (a.SameButLiterals b) := by
  unfold Node.SameButLiterals
  infer_instance

section

variable {m : Type → Type} [Monad m] {config : EncodingConfig}

mutual

theorem Node.forTokens_withoutValues (hout : config.includeLiterals = false)
    (emit : Text → m Unit) :
    (node : Node) → node.withoutValues.forTokens config emit = node.forTokens config emit
  | .identifier _ => rfl
  | .literal value => by
    simp only [Node.withoutValues, Node.forTokens, hout, Bool.false_eq_true, ↓reduceIte]
  | .composite _ children => by
    simp only [Node.withoutValues, Node.forTokens]
    exact forTokensOfAll_withoutValuesAll hout emit children

theorem forTokensOfAll_withoutValuesAll (hout : config.includeLiterals = false)
    (emit : Text → m Unit) : (nodes : List Node) →
      forTokensOfAll config emit (withoutValuesAll nodes) = forTokensOfAll config emit nodes
  | [] => rfl
  | node :: nodes => by
    simp only [withoutValuesAll, forTokensOfAll]
    rw [Node.forTokens_withoutValues hout emit node,
      forTokensOfAll_withoutValuesAll hout emit nodes]

end

mutual

theorem writeTree_withoutValues (hout : config.includeLiterals = false) (put : Text → m Unit) :
    (node : Node) → writeTree config put node.withoutValues = writeTree config put node
  | .identifier _ => rfl
  | .literal value => by
    simp only [Node.withoutValues, writeTree, hout, Bool.false_eq_true, ↓reduceIte]
  | .composite _ children => by
    simp only [Node.withoutValues, writeTree]
    rw [writeTrees_withoutValuesAll hout put children]

theorem writeTrees_withoutValuesAll (hout : config.includeLiterals = false) (put : Text → m Unit) :
    (nodes : List Node) →
      writeTrees config put (withoutValuesAll nodes) = writeTrees config put nodes
  | [] => rfl
  | node :: nodes => by
    simp only [withoutValuesAll, writeTrees]
    rw [writeTree_withoutValues hout put node, writeTrees_withoutValuesAll hout put nodes]

end

theorem encode_withoutValues (hout : config.includeLiterals = false) (put : Text → m Unit)
    (node : Node) : encode config put node.withoutValues = encode config put node := by
  rw [encode, encode]
  cases config.mode with
  | flat =>
    simp only [writeFlat]
    rw [Node.forTokens_withoutValues hout]
  | tree => exact writeTree_withoutValues hout put node

namespace Node.SameButLiterals

variable {a b : Node}

theorem forTokens_eq (h : a.SameButLiterals b) (hout : config.includeLiterals = false)
    (emit : Text → m Unit) : a.forTokens config emit = b.forTokens config emit := by
  rw [← forTokens_withoutValues hout, h, forTokens_withoutValues hout]

theorem encode_eq (h : a.SameButLiterals b) (hout : config.includeLiterals = false)
    (put : Text → m Unit) : encode config put a = encode config put b := by
  rw [← encode_withoutValues hout, h, encode_withoutValues hout]

end Node.SameButLiterals

end

theorem Node.SameButLiterals.encoding_eq {config : EncodingConfig} {a b : Node}
    (h : a.SameButLiterals b) (hout : config.includeLiterals = false) :
    a.encoding config = b.encoding config := by
  rw [encoding, encoding]
  simp only [h.encode_eq hout]

end TokenCorpus
