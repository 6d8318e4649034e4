import TokenCorpus.Proofs.Encoding.Pieces
import TokenCorpus.Proofs.Script.Acceptance

/-!
Reading the tree encoding of a script.

The tree encoding of whole tokens is a script again. Each leaf that a parser makes is one lexeme, and
the space after it ends that lexeme, so the encoding of a row of nodes is a layout of the same shape.
-/

namespace TokenCorpus

namespace Script

/-- The leaf that a text is when it stands alone. -/
def leafOf (t : Text) : Node :=
  if number? t = some (t, []) ∨ string? t = some (t, []) ∨ boolean? t = some (t, []) then .literal t
  else .identifier t

end Script

mutual

/-- The tree that is left when composite nodes lose their kinds and leaves are told apart by their
texts alone. A suppressed literal becomes an empty list. -/
def Node.relabel (includeLiterals : Bool) : Node → Node
  | .identifier name => Script.leafOf name
  | .literal value => if includeLiterals then Script.leafOf value else .composite .list []
  | .composite _ children => .composite .list (relabelAll includeLiterals children)

def relabelAll (includeLiterals : Bool) : List Node → List Node
  | [] => []
  | node :: nodes => node.relabel includeLiterals :: relabelAll includeLiterals nodes

end

namespace Script

theorem OneLexeme.leafOf_literal {t : Text} {l : Lexeme} (h : OneLexeme (.literal t) l) :
    leafOf t = .literal t ∧ l.text = t := by
  cases h with
  | number h => exact ⟨if_pos (Or.inl (number?_eq_some_iff.mpr ⟨h, by simp, rfl⟩)), rfl⟩
  | boolean h =>
    exact ⟨if_pos (Or.inr (Or.inr (boolean?_eq_some_iff.mpr ⟨h, by simp, rfl⟩))), rfl⟩
  | string h =>
    exact ⟨if_pos (Or.inr (Or.inl (string?_eq_some_iff.mpr ⟨_, h, rfl, by simp⟩))), rfl⟩

/-- A symbol is one lexeme also where no three points stand before it. -/
theorem IsSymbol.oneLexeme {name : Text} (h : IsSymbol name) :
    ∃ l, OneLexeme (leafOf name) l ∧ l.text = name := by
  obtain ⟨c, r, hc, hr, rfl⟩ := h
  refine ⟨.word c r, ?_, rfl⟩
  by_cases hnumber : IsNumber (c :: r)
  · rw [(OneLexeme.number hnumber).leafOf_literal.1]
    exact .number hnumber
  by_cases hboolean : IsBoolean (c :: r)
  · rw [(OneLexeme.boolean hboolean).leafOf_literal.1]
    exact .boolean hboolean
  have hidentifier : leafOf (c :: r) = .identifier (c :: r) := by
    refine if_neg ?_
    rintro (hn | hs | hb)
    · exact hnumber (number?_eq_some_iff.mp hn).1
    · obtain ⟨body, _, hquoted, _⟩ := string?_eq_some_iff.mp hs
      rw [(List.cons.inj hquoted).1] at hc
      exact absurd hc (by decide)
    · exact hboolean (boolean?_eq_some_iff.mp hb).1
  rw [hidentifier]
  exact .identifier ⟨c, r, hc, hr, rfl⟩ hnumber hboolean

/-- The whole tokens of a script are its lexemes, each of them a leaf by itself. -/
theorem Spells.lexeme_of_token {config : EncodingConfig} (hsub : config.subtokenize = false)
    {nodes : List Node} {ls : List Lexeme} (h : Spells nodes ls) :
    ∀ token ∈ tokenListAll config nodes, ∃ l, OneLexeme (leafOf token) l ∧ l.text = token := by
  have hleaf : ∀ text, (∃ l, OneLexeme (leafOf text) l ∧ l.text = text) →
      ∀ token ∈ leafTokens config text, ∃ l, OneLexeme (leafOf token) l ∧ l.text = token := by
    intro text htext token htoken
    rw [leafTokens, hsub] at htoken
    split at htoken
    · cases htoken
    · rw [List.mem_singleton.mp htoken]
      exact htext
  induction h with
  | nil => exact List.forall_mem_nil _
  | @one node l nodes _ hone _ ih =>
    refine List.forall_mem_append.mpr ⟨?_, ih⟩
    cases node with
    | identifier name =>
      have hsymbol : IsSymbol name := by cases hone; assumption
      exact hleaf name hsymbol.oneLexeme
    | literal value =>
      rw [Node.tokenList]
      split
      · obtain ⟨hliteral, htext⟩ := hone.leafOf_literal
        exact hleaf value ⟨l, hliteral ▸ hone, htext⟩
      · exact List.forall_mem_nil _
    | composite kind children =>
      cases hone with
      | @spread name hsymbol =>
        rw [Node.tokenList, tokenListAll, tokenListAll, List.append_nil]
        exact hleaf name hsymbol.oneLexeme
  | quote _ _ ihinner ih | group _ _ _ ihinner ih =>
    exact List.forall_mem_append.mpr ⟨ihinner, ih⟩

theorem LaidOut.space {s rest : Text} {nodes : List Node} (h : LaidOut s nodes (' ' :: rest)) :
    LaidOut s nodes rest := by
  obtain ⟨ls, hls, hlayout⟩ := h
  refine ⟨ls, hls, fun more hmore => hlayout more ?_⟩
  exact Layout.after_trivia (.separator rfl .nil) hmore

/-- The encoding of a leaf is its lexeme and a space. -/
theorem laidOut_leafPieces {t : Text} {l : Lexeme} (includeLiterals : Bool)
    (h : OneLexeme (leafOf t) l) (htext : l.text = t) (rest : Text) :
    LaidOut ((leafPieces (.tree includeLiterals) t).flatten ++ rest) [leafOf t] rest := by
  have hne : t ≠ [] := by
    obtain ⟨c, r, hc, _⟩ := h.proper
    rw [← htext, hc]
    exact List.cons_ne_nil c r
  have hpieces : (leafPieces (.tree includeLiterals) t).flatten ++ rest = l.text ++ ' ' :: rest := by
    simp [leafPieces, hne, EncodingConfig.tree, htext]
  rw [hpieces]
  exact (laidOut_lexeme h fun _ => rfl).space

theorem LaidOut.list {includeLiterals : Bool} (kind : Kind) {children nodes : List Node}
    {rest : Text}
    (h : LaidOut ((treePiecesAll (.tree includeLiterals) children).flatten ++ ')' :: rest) nodes
      (')' :: rest)) :
    LaidOut (((Node.composite kind children).treePieces (.tree includeLiterals)).flatten ++ rest)
      [.composite .list nodes] rest := by
  have hpieces : ((Node.composite kind children).treePieces (.tree includeLiterals)).flatten ++ rest =
      '(' :: ((treePiecesAll (.tree includeLiterals) children).flatten ++ ')' :: rest) := by
    simp [Node.treePieces]
  rw [hpieces]
  exact h.group .list

theorem treePiecesAll_cons (config : EncodingConfig) (node : Node) (nodes : List Node) (rest : Text) :
    (treePiecesAll config (node :: nodes)).flatten ++ rest =
      (node.treePieces config).flatten ++ ((treePiecesAll config nodes).flatten ++ rest) := by
  simp [treePiecesAll]

theorem treePiecesAll_singleton (config : EncodingConfig) (node : Node) :
    treePiecesAll config [node] = node.treePieces config := by
  simp [treePiecesAll]

/-- The encoding of the nodes of a script is a layout of the relabelled nodes. -/
theorem Spells.laidOut_treePieces (includeLiterals : Bool) {nodes : List Node} {ls : List Lexeme}
    (h : Spells nodes ls) (rest : Text) :
    LaidOut ((treePiecesAll (.tree includeLiterals) nodes).flatten ++ rest)
      (relabelAll includeLiterals nodes) rest := by
  induction h generalizing rest with
  | nil => exact .nil rest
  | @one node l nodes _ hone _ ih =>
    rw [treePiecesAll_cons]
    refine LaidOut.cons ?_ (ih rest)
    cases node with
    | identifier name =>
      have hsymbol : IsSymbol name := by cases hone; assumption
      obtain ⟨l', hl', htext⟩ := hsymbol.oneLexeme
      exact laidOut_leafPieces includeLiterals hl' htext _
    | literal value =>
      obtain ⟨hleaf, htext⟩ := hone.leafOf_literal
      cases includeLiterals with
      | false => exact (LaidOut.nil _).group .list
      | true =>
        rw [← hleaf] at hone
        exact laidOut_leafPieces true hone htext _
    | composite kind children =>
      cases hone with
      | @spread name hsymbol =>
        obtain ⟨l', hl', htext⟩ := hsymbol.oneLexeme
        refine LaidOut.list .spread ?_
        rw [treePiecesAll_singleton]
        exact laidOut_leafPieces includeLiterals hl' htext _
  | quote _ _ ihquoted ih =>
    rw [treePiecesAll_cons]
    exact LaidOut.cons ((ihquoted _).list .quote) (ih rest)
  | group _ _ _ ihchildren ih =>
    rw [treePiecesAll_cons]
    exact LaidOut.cons ((ihchildren _).list _) (ih rest)

/-- The tree encoding of a script is a script, with the tree of the first one for its only form. Its
composite nodes have become lists, and its leaves are what their texts are by themselves. -/
theorem parse_encoding_tree {path source : Text} {tree : Node} (includeLiterals : Bool)
    (path' : Text) (h : parse path source = .ok tree) :
    parse path' (tree.encoding (.tree includeLiterals)) =
      .ok (.composite .program [tree.relabel includeLiterals]) := by
  obtain ⟨nodes, ls, rfl, hspells, _⟩ := renders_of_program (parse_eq_ok_iff_program.mp h)
  have hlaid := (hspells.laidOut_treePieces includeLiterals [')']).list .program
  rw [List.append_nil, ← Node.encoding_tree rfl] at hlaid
  exact parse_eq_ok_iff_program.mpr (program_of_renders hlaid.renders)

/-- A quoted list with a string that looks like a comment, and a spread that looks like a boolean. -/
theorem parse_encoding_tree_spread :
    parse [] "'(\";)\" -2x) \x7b...true\x7d ; end".toList =
        .ok (.composite .program [.composite .quote [.composite .list
          [.literal "\";)\"".toList, .identifier "-2x".toList]],
          .composite .block [.composite .spread [.identifier "true".toList]]]) ∧
      parse [] "(((\";)\" -2x ))((true )))".toList =
        .ok (.composite .program [.composite .list [.composite .list [.composite .list
          [.literal "\";)\"".toList, .identifier "-2x".toList]],
          .composite .list [.composite .list [.literal "true".toList]]]]) := by
  have hparse : parse [] "'(\";)\" -2x) \x7b...true\x7d ; end".toList =
      .ok (.composite .program [.composite .quote [.composite .list
        [.literal "\";)\"".toList, .identifier "-2x".toList]],
        .composite .block [.composite .spread [.identifier "true".toList]]]) := by decide +kernel
  exact ⟨hparse, parse_encoding_tree true [] hparse⟩

end Script

end TokenCorpus
