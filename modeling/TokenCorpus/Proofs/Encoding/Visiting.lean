import TokenCorpus.Proofs.Encoding.Pieces

/-!
What a visit of a tree offers.

The tokens of a tree can be told without visiting it: they are the texts of its leaves in preorder,
without the empty ones, whole or in subtokens. A visit offers them in this order, and the first one
that is refused is the last one offered. Writing the flat encoding is such a visit, with a space for
each gap between two tokens.
-/

namespace TokenCorpus

/-! ## Tokens in preorder -/

mutual

/-- The nodes of a tree, each before its children. -/
def Node.preorder : Node → List Node
  | .identifier name => [.identifier name]
  | .literal value => [.literal value]
  | .composite kind children => .composite kind children :: preorderAll children

def preorderAll : List Node → List Node
  | [] => []
  | node :: nodes => node.preorder ++ preorderAll nodes

end

/-- The texts that nodes show by themselves: the names of identifiers, and the values of literals
unless they are left out. An empty text is not seen. -/
def shownTexts (config : EncodingConfig) (nodes : List Node) : List Text :=
  (nodes.filterMap (Node.leafText? config)).filter (· ≠ [])

/-- Texts as tokens, whole or in subtokens. -/
def tokensOfTexts (config : EncodingConfig) (texts : List Text) : List Text :=
  if config.subtokenize then texts.flatMap subtokensOfText else texts

/-- The tokens that the leaves of a tree stand for, in preorder. -/
def Node.shownTokens (config : EncodingConfig) (node : Node) : List Text :=
  tokensOfTexts config (shownTexts config node.preorder)

theorem shownTexts_append (config : EncodingConfig) (nodes more : List Node) :
    shownTexts config (nodes ++ more) = shownTexts config nodes ++ shownTexts config more := by
  rw [shownTexts, List.filterMap_append, List.filter_append]
  rfl

theorem tokensOfTexts_append (config : EncodingConfig) (texts more : List Text) :
    tokensOfTexts config (texts ++ more) =
      tokensOfTexts config texts ++ tokensOfTexts config more := by
  unfold tokensOfTexts
  split
  · exact List.flatMap_append
  · rfl

/-- The tokens of a leaf with the text. -/
theorem tokensOfTexts_singleton (config : EncodingConfig) (text : Text) :
    tokensOfTexts config ([text].filter (· ≠ [])) = leafTokens config text := by
  rw [leafTokens, tokensOfTexts]
  by_cases hempty : text = []
  · simp [hempty]
  · simp [hempty]

mutual

theorem Node.shownTokens_eq_tokenList (config : EncodingConfig) :
    (node : Node) → node.shownTokens config = node.tokenList config
  | .identifier name => tokensOfTexts_singleton config name
  | .literal value => by
    rw [Node.shownTokens, Node.preorder, Node.tokenList]
    cases hliterals : config.includeLiterals with
    | false =>
      have hnone : shownTexts config [.literal value] = [] := by
        simp [shownTexts, Node.leafText?, hliterals]
      rw [hnone]
      simp [tokensOfTexts]
    | true =>
      have hshown : shownTexts config [.literal value] = [value].filter (· ≠ []) := by
        simp [shownTexts, Node.leafText?, hliterals]
      rw [hshown]
      exact tokensOfTexts_singleton config value
  | .composite kind children => by
    have hself : shownTexts config (.composite kind children :: preorderAll children) =
        shownTexts config (preorderAll children) := rfl
    rw [Node.shownTokens, Node.preorder, Node.tokenList, hself,
      shownTokens_preorderAll config children]

theorem shownTokens_preorderAll (config : EncodingConfig) :
    (nodes : List Node) → tokensOfTexts config (shownTexts config (preorderAll nodes)) =
      tokenListAll config nodes
  | [] => by simp [preorderAll, shownTexts, tokensOfTexts, tokenListAll]
  | node :: nodes => by
    rw [preorderAll, shownTexts_append, tokensOfTexts_append, tokenListAll,
      ← Node.shownTokens_eq_tokenList config node, shownTokens_preorderAll config nodes]
    rfl

end

/-- The tokens of a tree are the same for both encodings. -/
theorem Node.tokenList_mode (config : EncodingConfig) (mode : EncodingMode) (node : Node) :
    node.tokenList { config with mode } = node.tokenList config := by
  rw [← Node.shownTokens_eq_tokenList, ← Node.shownTokens_eq_tokenList]
  rfl

/-! ## Callbacks -/

section

variable {σ ε : Type}

/-- What comes of offering tokens to a callback in order. The callback has a state, and the first
token that it refuses is the last one it is offered. -/
def offer (callback : Text → ExceptT ε (StateM σ) Unit) : List Text → σ → Except ε Unit × σ
  | [], state => (.ok (), state)
  | token :: tokens, state =>
    match (callback token).run.run state with
    | (.ok (), state') => offer callback tokens state'
    | (.error e, state') => (.error e, state')

variable (callback : Text → ExceptT ε (StateM σ) Unit)

theorem run_forM_eq_offer (tokens : List Text) (state : σ) :
    (forM tokens callback).run.run state = offer callback tokens state := by
  induction tokens generalizing state with
  | nil => rfl
  | cons token tokens ih =>
    rw [List.forM_cons, offer]
    simp only [ExceptT.run_bind, StateT.run_bind]
    cases hcall : (callback token).run.run state with
    | mk result state' =>
      cases result with
      | ok => exact ih state'
      | error => rfl

/-- The callback has taken every token, or it has refused one. The tokens before that one it has
taken, and of those behind it it has not been asked. -/
def EndsAtRefusal (tokens : List Text) (state : σ) (outcome : Except ε Unit × σ) : Prop :=
  (∃ final, outcome = (.ok (), final)) ∨
    ∃ before token after met e final, tokens = before ++ token :: after ∧
      offer callback before state = (.ok (), met) ∧
        (callback token).run.run met = (.error e, final) ∧ outcome = (.error e, final)

theorem endsAtRefusal_offer (tokens : List Text) (state : σ) :
    EndsAtRefusal callback tokens state (offer callback tokens state) := by
  induction tokens generalizing state with
  | nil => exact Or.inl ⟨state, rfl⟩
  | cons token tokens ih =>
    cases hcall : (callback token).run.run state with
    | mk result state' =>
      cases result with
      | error e =>
        exact Or.inr ⟨[], token, tokens, state, e, state', rfl, rfl, hcall, by rw [offer, hcall]⟩
      | ok =>
        have hnext : ∀ more, offer callback (token :: more) state = offer callback more state' := by
          intro more
          rw [offer, hcall]
        rw [EndsAtRefusal, hnext]
        obtain hall | ⟨before, refused, after, met, e, final, rfl, hbefore, hrefused, hend⟩ := ih state'
        · exact Or.inl hall
        · exact Or.inr ⟨token :: before, refused, after, met, e, final, rfl,
            (hnext before).trans hbefore, hrefused, hend⟩

end

/-! ## Visits -/

/-- The pieces of a row of tokens are the tokens with a space in each gap. -/
theorem flatPieces_eq_intersperse (tokens : List Text) :
    flatPieces false tokens = tokens.intersperse [' '] := by
  cases tokens with
  | nil => rfl
  | cons token tokens =>
    induction tokens generalizing token with
    | nil => rfl
    | cons next tokens ih =>
      rw [List.intersperse_cons_cons, ← ih next]
      rfl

/-- A visit offers the tokens of a tree in order up to the first that is refused. The flat encoding
writes them in the same way, with a space in each gap and none before or behind them. -/
theorem Node.forTokens_eq_offer {σ ε : Type} (config : EncodingConfig) (node : Node)
    (callback : Text → ExceptT ε (StateM σ) Unit) (state : σ) :
    (node.forTokens config callback).run.run state =
        offer callback (node.shownTokens config) state ∧
      EndsAtRefusal callback (node.shownTokens config) state
        (offer callback (node.shownTokens config) state) ∧
      (writeFlat config callback node).run.run state =
        offer callback ((node.shownTokens config).intersperse [' ']) state ∧
      node.encoding { config with mode := .flat } = Text.spaced (node.shownTokens config) := by
  have htokens := node.shownTokens_eq_tokenList config
  refine ⟨?_, endsAtRefusal_offer callback _ state, ?_, ?_⟩
  · rw [forTokens_eq_forM, htokens, run_forM_eq_offer]
  · rw [writeFlat_eq_forM, flatPieces_eq_intersperse, htokens, run_forM_eq_offer]
  · rw [encoding_flat rfl, tokenList_mode, htokens]

end TokenCorpus
