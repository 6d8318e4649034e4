import TokenCorpus.Proofs.Script.Rereading
import TokenCorpus.Proofs.Text.Words

/-!
Reading the flat encoding of a script.

The flat encoding of whole tokens is a script again: each token is one lexeme, and one space is enough
between any two. Its forms are leaves, one for each token, and its own flat encoding is the same text.
-/

namespace TokenCorpus

namespace Script

/-- Symbols are made of visible characters of one byte. -/
theorem toNat_of_isSymbolChar {c : Char} (h : isSymbolChar c) : 0x21 ≤ c.toNat ∧ c.toNat ≤ 0x7E := by
  have hrange : ∀ {first last : Char}, first.val ≤ c.val → c.val ≤ last.val →
      0x21 ≤ first.toNat → last.toNat ≤ 0x7E → 0x21 ≤ c.toNat ∧ c.toNat ≤ 0x7E :=
    fun hfirst hlast hlow hhigh => ⟨Nat.le_trans hlow hfirst, Nat.le_trans hlast hhigh⟩
  simp only [isSymbolChar, isSymbolStart, Bool.or_eq_true, decide_eq_true_eq, beq_iff_eq] at h
  rcases h with ((halpha | hmark) | hdigit) | rfl
  · obtain hupper | hlower := Bool.or_eq_true_iff.mp halpha
    · obtain ⟨hfirst, hlast⟩ : 'A'.val ≤ c.val ∧ c.val ≤ 'Z'.val := of_decide_eq_true hupper
      exact hrange hfirst hlast (by decide) (by decide)
    · obtain ⟨hfirst, hlast⟩ := Bool.and_eq_true_iff.mp hlower
      exact hrange (of_decide_eq_true hfirst : 'a'.val ≤ c.val)
        (of_decide_eq_true hlast : c.val ≤ 'z'.val) (by decide) (by decide)
  · -- A test of the list: a quantifier over characters would be decided by running through them all.
    have hmarks : "_+-*/<>=!?%&|^~$:@#".toList.all fun d => 0x21 ≤ d.toNat ∧ d.toNat ≤ 0x7E := by
      decide
    exact of_decide_eq_true (List.all_eq_true.mp hmarks c hmark)
  · obtain ⟨hfirst, hlast⟩ := Bool.and_eq_true_iff.mp hdigit
    exact hrange (of_decide_eq_true hfirst : '0'.val ≤ c.val)
      (of_decide_eq_true hlast : c.val ≤ '9'.val) (by decide) (by decide)
  · decide

theorem isBlank_of_isSymbolChar {c : Char} (h : isSymbolChar c) : Text.isBlank c = false := by
  have hcode := toNat_of_isSymbolChar h
  simp only [Text.isBlank, Text.blanks, List.any_cons, List.any_nil, Bool.or_false,
    Bool.or_eq_false_iff, Bool.and_eq_false_iff, decide_eq_false_iff_not]
  omega

theorem OneLexeme.trimmed {node : Node} {l : Lexeme} (h : OneLexeme node l) :
    l.text ≠ [] ∧ l.text.Trimmed := by
  obtain ⟨c, r, htext, -⟩ := h.head_not_mark
  refine ⟨by rw [htext]; exact List.cons_ne_nil c r, ?_⟩
  cases l with
  | mark c => cases h
  | string body =>
    refine ⟨rfl, ?_⟩
    have hlast : ('"' :: body ++ ['"']).getLast? = some '"' := List.getLast?_concat
    change (quoted body).getLast?.any Text.isBlank = false
    rw [quoted, ← List.cons_append, hlast]
    decide
  | word c r => exact .of_forall fun d hd => isBlank_of_isSymbolChar (h.all_isSymbolChar rfl d hd)

/-- Lexemes with spaces between them are laid out as leaves. -/
theorem laidOut_spaced {tokens : List Text}
    (h : ∀ token ∈ tokens, ∃ l, OneLexeme (leafOf token) l ∧ l.text = token) :
    LaidOut (Text.spaced tokens) (tokens.map leafOf) [] := by
  induction tokens with
  | nil => exact .nil []
  | cons token tokens ih =>
    obtain ⟨l, hone, htext⟩ := h token List.mem_cons_self
    cases tokens with
    | nil =>
      have hlast : LaidOut (l.text ++ []) [leafOf token] [] := laidOut_lexeme hone fun _ => rfl
      rw [List.append_nil, htext] at hlast
      rw [Text.spaced_singleton]
      exact hlast
    | cons next tokens =>
      have hrest := ih fun token hmem => h token (List.mem_cons_of_mem _ hmem)
      have hfirst : LaidOut (l.text ++ ' ' :: Text.spaced (next :: tokens)) [leafOf token]
          (' ' :: Text.spaced (next :: tokens)) := laidOut_lexeme hone fun _ => rfl
      rw [htext] at hfirst
      rw [Text.spaced_cons_cons]
      exact hfirst.space.cons hrest

/-- A leaf shows the text that it was made of. -/
theorem tokenList_leafOf {token : Text} (hne : token ≠ []) :
    (leafOf token).tokenList (.flat true) = [token] := by
  have hleaf : leafTokens (.flat true) token = [token] := if_neg hne
  unfold leafOf
  split
  · exact hleaf
  · exact hleaf

theorem tokenListAll_leafOf {tokens : List Text} (h : ∀ token ∈ tokens, token ≠ []) :
    tokenListAll (.flat true) (tokens.map leafOf) = tokens := by
  induction tokens with
  | nil => rfl
  | cons token tokens ih =>
    obtain ⟨hne, hrest⟩ := List.forall_mem_cons.mp h
    rw [List.map_cons, tokenListAll, tokenList_leafOf hne, ih hrest, List.singleton_append]

/-- The flat encoding of a script is a script whose forms are its tokens, each the leaf that its text
is by itself. It is its own flat encoding, with no blank at its ends. -/
theorem parse_encoding_flat {path source : Text} {tree : Node} (path' : Text)
    (h : parse path source = .ok tree) :
    let document := tree.encoding (.flat true)
    let reread := Node.composite .program ((tree.tokens (.flat true)).map leafOf)
    parse path' document = .ok reread ∧ reread.encoding (.flat true) = document ∧
      document.Trimmed := by
  intro document reread
  obtain ⟨nodes, ls, rfl, hspells, -⟩ := renders_of_program (parse_eq_ok_iff_program.mp h)
  have hlexemes : ∀ token ∈ tokenListAll (.flat true) nodes,
      ∃ l, OneLexeme (leafOf token) l ∧ l.text = token := hspells.lexeme_of_token rfl
  have htrimmed : ∀ token ∈ tokenListAll (.flat true) nodes, token ≠ [] ∧ token.Trimmed := by
    intro token htoken
    obtain ⟨l, hone, htext⟩ := hlexemes token htoken
    rw [← htext]
    exact hone.trimmed
  have htokens : (Node.composite .program nodes).tokens (.flat true) =
      tokenListAll (.flat true) nodes := Node.tokens_eq_tokenList _ _
  have hdocument : document = Text.spaced (tokenListAll (.flat true) nodes) :=
    Node.encoding_flat rfl _
  have hreread : reread = .composite .program ((tokenListAll (.flat true) nodes).map leafOf) := by
    rw [← htokens]
  refine ⟨?_, ?_, ?_⟩
  · rw [hdocument, hreread]
    exact parse_eq_ok_iff_program.mpr (program_of_renders (laidOut_spaced hlexemes).renders)
  · rw [hreread, Node.encoding_flat rfl, Node.tokenList,
      tokenListAll_leafOf fun token htoken => (htrimmed token htoken).1, hdocument]
  · rw [hdocument]
    exact (Text.trimmed_spaced htrimmed).1

/-- A string that looks like a comment with its line end, and a spread that looks like a number. -/
theorem parse_encoding_flat_spread :
    let tree := Node.composite .program [.composite .block [.composite .list
      [.identifier "say".toList, .literal "\";)\n\"".toList],
      .composite .spread [.identifier "-2".toList]]]
    let document : Text := "say \";)\n\" -2".toList
    let reread := Node.composite .program
      [.identifier "say".toList, .literal "\";)\n\"".toList, .literal "-2".toList]
    parse [] "\x7b(say \";)\n\") ...-2\x7d ; end".toList = .ok tree ∧
      tree.encoding (.flat true) = document ∧ parse [] document = .ok reread ∧
      reread.encoding (.flat true) = document ∧ document.Trimmed := by
  intro tree document reread
  have hparse : parse [] "\x7b(say \";)\n\") ...-2\x7d ; end".toList = .ok tree := by
    decide +kernel
  have hdocument : tree.encoding (.flat true) = document := by decide +kernel
  have hleaves : .composite .program ((tree.tokens (.flat true)).map leafOf) = reread := by
    decide +kernel
  obtain ⟨hreread, hfixed, htrimmed⟩ := parse_encoding_flat [] hparse
  rw [hdocument, hleaves] at hreread
  rw [hdocument, hleaves] at hfixed
  rw [hdocument] at htrimmed
  exact ⟨hparse, hdocument, hreread, hfixed, htrimmed⟩

end Script

end TokenCorpus
