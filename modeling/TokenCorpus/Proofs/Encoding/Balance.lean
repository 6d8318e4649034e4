import TokenCorpus.Proofs.Encoding.Pieces
import TokenCorpus.Proofs.Script.Acceptance
import TokenCorpus.Proofs.Text.Subtokens

/-!
Balance of the tree encoding.

Composite nodes and suppressed literals are written as pairs of parentheses. The texts of leaves are
written as they are, whole or in subtokens, and each parenthesis in them comes through. Of the leaves
of a script only strings can hold any, so these decide whether the encoding is balanced.
-/

namespace TokenCorpus

namespace Text

/-- No parenthesis is closed before it is opened, and none is left open. -/
structure Balanced (t : Text) : Prop where
  closed_le_opened : ∀ n, (t.take n).count ')' ≤ (t.take n).count '('
  opened_eq_closed : t.count '(' = t.count ')'

instance (t : Text) : Decidable t.Balanced :=
  decidable_of_iff
    ((∀ n ≤ t.length, (t.take n).count ')' ≤ (t.take n).count '(') ∧ t.count '(' = t.count ')') <| by
    refine ⟨fun ⟨hle, heq⟩ => ⟨fun n => ?_, heq⟩, fun h => ⟨fun n _ => h.closed_le_opened n, ?_⟩⟩
    · obtain hn | hn := Nat.le_total n t.length
      · exact hle n hn
      · rw [List.take_of_length_le hn, heq]
    · exact h.opened_eq_closed

def ParenthesisFree (t : Text) : Prop := '(' ∉ t ∧ ')' ∉ t

instance (t : Text) : Decidable t.ParenthesisFree := by unfold ParenthesisFree; infer_instance

theorem parenthesisFree_iff_count {t : Text} :
    t.ParenthesisFree ↔ t.count '(' = 0 ∧ t.count ')' = 0 := by
  rw [ParenthesisFree, List.count_eq_zero, List.count_eq_zero]

theorem ParenthesisFree.balanced {t : Text} (h : t.ParenthesisFree) : t.Balanced := by
  refine ⟨fun n => ?_, ?_⟩
  · have hclosed : (t.take n).count ')' = 0 :=
      List.count_eq_zero.mpr fun hmem => h.2 (List.mem_of_mem_take hmem)
    omega
  · obtain ⟨hopened, hclosed⟩ := parenthesisFree_iff_count.mp h
    rw [hopened, hclosed]

theorem parenthesisFree_flatten {ts : List Text} :
    ParenthesisFree ts.flatten ↔ ∀ t ∈ ts, t.ParenthesisFree := by
  simp only [ParenthesisFree, List.mem_flatten, not_exists, not_and]
  exact ⟨fun h t ht => ⟨h.1 t ht, h.2 t ht⟩, fun h => ⟨fun t ht => (h t ht).1, fun t ht => (h t ht).2⟩⟩

theorem Balanced.append {s t : Text} (hs : s.Balanced) (ht : t.Balanced) : (s ++ t).Balanced := by
  refine ⟨fun n => ?_, ?_⟩
  · rw [List.take_append, List.count_append, List.count_append]
    exact Nat.add_le_add (hs.closed_le_opened n) (ht.closed_le_opened _)
  · rw [List.count_append, List.count_append, hs.opened_eq_closed, ht.opened_eq_closed]

theorem Balanced.wrap {t : Text} (ht : t.Balanced) : Balanced ('(' :: (t ++ [')'])) := by
  refine ⟨fun n => ?_, ?_⟩
  · cases n with
    | zero => exact Nat.le_refl 0
    | succ n =>
      have hinner := ht.closed_le_opened n
      have hlast : ([')'].take (n - t.length)).count ')' ≤ 1 :=
        (List.take_sublist _ [')']).count_le ')'
      rw [List.take_succ_cons, List.take_append, List.count_cons_of_ne (by decide),
        List.count_cons_self, List.count_append, List.count_append]
      omega
  · have hwhole := ht.opened_eq_closed
    simp [hwhole]

end Text

/-! ## Parentheses of a tree -/

mutual

/-- The number of composite nodes. -/
def Node.composites : Node → Nat
  | .identifier _ | .literal _ => 0
  | .composite _ children => compositesAll children + 1

def compositesAll : List Node → Nat
  | [] => 0
  | node :: nodes => node.composites + compositesAll nodes

end

mutual

/-- The names of the identifiers. -/
def Node.names : Node → List Text
  | .identifier name => [name]
  | .literal _ => []
  | .composite _ children => namesAll children

def namesAll : List Node → List Text
  | [] => []
  | node :: nodes => node.names ++ namesAll nodes

end

mutual

/-- The values of the literals. -/
def Node.literals : Node → List Text
  | .identifier _ => []
  | .literal value => [value]
  | .composite _ children => literalsAll children

def literalsAll : List Node → List Text
  | [] => []
  | node :: nodes => node.literals ++ literalsAll nodes

end

/-- The composite nodes and the suppressed literals: what a pair of parentheses stands for. -/
def Node.pairs (includeLiterals : Bool) (node : Node) : Nat :=
  node.composites + if includeLiterals then 0 else node.literals.length

def IsParenthesis (c : Char) : Prop := c = '(' ∨ c = ')'

namespace IsParenthesis

variable {b : Char}

theorem keeps (hb : IsParenthesis b) : Subtoken.Keeps b ∧ Text.isBlank b = false := by
  obtain rfl | rfl := hb
  · exact ⟨⟨by decide, by decide⟩, by decide⟩
  · exact ⟨⟨by decide, by decide⟩, by decide⟩

theorem count_singleton_of_not (hb : IsParenthesis b) {c : Char} (hc : ¬ IsParenthesis c) :
    [c].count b = 0 := by
  refine List.count_eq_zero.mpr fun hmem => ?_
  rw [List.mem_singleton.mp hmem] at hb
  exact hc hb

end IsParenthesis

instance (c : Char) : Decidable (IsParenthesis c) := by unfold IsParenthesis; infer_instance

section

variable {b : Char}

theorem count_emptyPieces (hb : IsParenthesis b) : emptyPieces.flatten.count b = 1 := by
  obtain rfl | rfl := hb <;> decide

/-- The parentheses of a leaf are those of its text, whole or in subtokens. -/
theorem count_leafPieces (config : EncodingConfig) (hb : IsParenthesis b) {text : Text}
    (hne : text ≠ []) :
    (leafPieces config text).flatten.count b = text.count b := by
  obtain ⟨hkeeps, hblank⟩ := hb.keeps
  have hspace : b ≠ ' ' := by
    rintro rfl
    exact absurd hb (by decide)
  have hmarks : [' '].count b = 0 ∧ ['['].count b = 0 ∧ [']'].count b = 0 :=
    ⟨hb.count_singleton_of_not (by decide), hb.count_singleton_of_not (by decide),
      hb.count_singleton_of_not (by decide)⟩
  obtain ⟨hgap, hopening, hclosing⟩ := hmarks
  rw [leafPieces, if_neg hne]
  cases config.subtokenize with
  | false => simp [hgap]
  | true =>
    have hparts := hkeeps.count_subtokensOfText hblank text
    rw [← Text.count_spaced hspace] at hparts
    simp only [↓reduceIte, List.flatten_append, List.flatten_cons, List.flatten_nil,
      List.append_nil, List.count_append, hgap, hopening, hclosing, hparts]
    omega

mutual

/-- The parentheses of an encoding are those of its pairs and those in the leaves it shows. -/
theorem Node.count_treePieces (config : EncodingConfig) (hb : IsParenthesis b) :
    (node : Node) → (∀ name ∈ node.names, name ≠ []) → (∀ value ∈ node.literals, value ≠ []) →
      (node.treePieces config).flatten.count b = node.pairs config.includeLiterals +
        node.names.flatten.count b +
          if config.includeLiterals then node.literals.flatten.count b else 0
  | .identifier name, hnames, _ => by
    rw [Node.treePieces, count_leafPieces config hb (hnames name (List.mem_singleton.mpr rfl))]
    simp [Node.pairs, Node.composites, Node.names, Node.literals]
  | .literal value, _, hliterals => by
    rw [Node.treePieces]
    cases config.includeLiterals with
    | false =>
      rw [if_neg Bool.false_ne_true, count_emptyPieces hb]
      rfl
    | true =>
      rw [if_pos rfl, count_leafPieces config hb (hliterals value (List.mem_singleton.mpr rfl))]
      simp [Node.pairs, Node.composites, Node.names, Node.literals]
  | .composite kind children, hnames, hliterals => by
    have hinner := count_treePiecesAll config hb children hnames hliterals
    have hpair := count_emptyPieces hb
    rw [emptyPieces, List.flatten_cons, List.count_append] at hpair
    rw [Node.treePieces, List.flatten_cons, List.flatten_append, List.count_append,
      List.count_append, hinner, Node.pairs, Node.composites, Node.names, Node.literals]
    omega

theorem count_treePiecesAll (config : EncodingConfig) (hb : IsParenthesis b) :
    (nodes : List Node) → (∀ name ∈ namesAll nodes, name ≠ []) →
      (∀ value ∈ literalsAll nodes, value ≠ []) →
      (treePiecesAll config nodes).flatten.count b =
        (compositesAll nodes + if config.includeLiterals then 0 else (literalsAll nodes).length) +
          (namesAll nodes).flatten.count b +
            if config.includeLiterals then (literalsAll nodes).flatten.count b else 0
  | [], _, _ => by simp [treePiecesAll, compositesAll, namesAll, literalsAll]
  | node :: nodes, hnames, hliterals => by
    have hfirst := Node.count_treePieces config hb node
      (fun name hname => hnames name (List.mem_append_left _ hname))
      fun value hvalue => hliterals value (List.mem_append_left _ hvalue)
    have hrest := count_treePiecesAll config hb nodes
      (fun name hname => hnames name (List.mem_append_right _ hname))
      fun value hvalue => hliterals value (List.mem_append_right _ hvalue)
    rw [treePiecesAll, List.flatten_append, List.count_append, hfirst, hrest, Node.pairs,
      compositesAll, namesAll, literalsAll, List.flatten_append, List.flatten_append,
      List.count_append, List.count_append, List.length_append]
    split <;> omega

end

end

/-! ## Balanced trees -/

theorem balanced_emptyPieces : Text.Balanced emptyPieces.flatten := by decide

theorem balanced_leafPieces (config : EncodingConfig) {text : Text} (h : text.ParenthesisFree) :
    Text.Balanced (leafPieces config text).flatten := by
  by_cases hne : text = []
  · rw [leafPieces, if_pos hne]
    exact balanced_emptyPieces
  · rw [Text.parenthesisFree_iff_count, ← count_leafPieces config (Or.inl rfl) hne,
      ← count_leafPieces config (Or.inr rfl) hne, ← Text.parenthesisFree_iff_count] at h
    exact h.balanced

mutual

/-- Leaves without parentheses leave the pairs of the nodes balanced. -/
theorem Node.balanced_treePieces (config : EncodingConfig) :
    (node : Node) → (∀ name ∈ node.names, name.ParenthesisFree) →
      (config.includeLiterals → ∀ value ∈ node.literals, value.ParenthesisFree) →
      Text.Balanced (node.treePieces config).flatten
  | .identifier name, hnames, _ =>
    balanced_leafPieces config (hnames name (List.mem_singleton.mpr rfl))
  | .literal value, _, hliterals => by
    rw [Node.treePieces]
    split
    · next hshown =>
      exact balanced_leafPieces config (hliterals hshown value (List.mem_singleton.mpr rfl))
    · exact balanced_emptyPieces
  | .composite kind children, hnames, hliterals => by
    have hinner := balanced_treePiecesAll config children hnames hliterals
    rw [Node.treePieces, List.flatten_cons, List.flatten_append]
    exact hinner.wrap

theorem balanced_treePiecesAll (config : EncodingConfig) :
    (nodes : List Node) → (∀ name ∈ namesAll nodes, name.ParenthesisFree) →
      (config.includeLiterals → ∀ value ∈ literalsAll nodes, value.ParenthesisFree) →
      Text.Balanced (treePiecesAll config nodes).flatten
  | [], _, _ => Text.ParenthesisFree.balanced ⟨List.not_mem_nil, List.not_mem_nil⟩
  | node :: nodes, hnames, hliterals => by
    have hfirst := Node.balanced_treePieces config node
      (fun name hname => hnames name (List.mem_append_left _ hname))
      fun hshown value hvalue => hliterals hshown value (List.mem_append_left _ hvalue)
    have hrest := balanced_treePiecesAll config nodes
      (fun name hname => hnames name (List.mem_append_right _ hname))
      fun hshown value hvalue => hliterals hshown value (List.mem_append_right _ hvalue)
    rw [treePiecesAll, List.flatten_append]
    exact hfirst.append hrest

end

/-! ## Scripts -/

namespace Script

theorem IsSymbol.parenthesisFree {name : Text} (h : IsSymbol name) : name.ParenthesisFree := by
  obtain ⟨c, r, hc, hr, rfl⟩ := h
  have hchars : ∀ d ∈ c :: r, isSymbolChar d = true := by
    rw [List.forall_mem_cons]
    exact ⟨by rw [isSymbolChar, hc]; rfl, hr⟩
  exact ⟨fun hmem => absurd (hchars _ hmem) (by decide), fun hmem => absurd (hchars _ hmem) (by decide)⟩

/-- The leaves of scripts have texts, and those of identifiers hold no parentheses. -/
theorem Spells.leaves {nodes : List Node} {ls : List Lexeme} (h : Spells nodes ls) :
    (∀ name ∈ namesAll nodes, IsSymbol name) ∧ ∀ value ∈ literalsAll nodes, value ≠ [] := by
  induction h with
  | nil => simp [namesAll, literalsAll]
  | one h _ ih =>
    obtain ⟨hnames, hliterals⟩ := ih
    cases h <;> simp_all [namesAll, literalsAll, Node.names, Node.literals, quoted]
  | quote _ _ ihinner ih | group _ _ _ ihinner ih =>
    obtain ⟨hinner, hinner'⟩ := ihinner
    obtain ⟨hnames, hliterals⟩ := ih
    exact ⟨List.forall_mem_append.mpr ⟨hinner, hnames⟩,
      List.forall_mem_append.mpr ⟨hinner', hliterals⟩⟩

theorem leaves_of_parse {path source : Text} {tree : Node} (h : parse path source = .ok tree) :
    (∀ name ∈ tree.names, IsSymbol name) ∧ ∀ value ∈ tree.literals, value ≠ [] := by
  obtain ⟨nodes, ls, rfl, hspells, _⟩ := renders_of_program (parse_eq_ok_iff_program.mp h)
  exact hspells.leaves

/-- The tree encoding of a script is balanced, with a pair of parentheses for each composite node and
each suppressed literal and no others, if and only if no literal that it shows holds a parenthesis. -/
theorem balanced_encoding_iff {path source : Text} {tree : Node} {config : EncodingConfig}
    (h : parse path source = .ok tree) (hmode : config.mode = .tree) :
    (tree.encoding config).Balanced ∧
        (tree.encoding config).count '(' = tree.pairs config.includeLiterals ↔
      (config.includeLiterals → ∀ value ∈ tree.literals, value.ParenthesisFree) := by
  obtain ⟨hsymbols, hvalues⟩ := leaves_of_parse h
  have hnames : ∀ name ∈ tree.names, name.ParenthesisFree :=
    fun name hname => (hsymbols name hname).parenthesisFree
  have hne : ∀ name ∈ tree.names, name ≠ [] := by
    intro name hname
    obtain ⟨c, r, -, -, rfl⟩ := hsymbols name hname
    exact List.cons_ne_nil c r
  have hfree := Text.parenthesisFree_iff_count.mp (Text.parenthesisFree_flatten.mpr hnames)
  have hopened := tree.count_treePieces config (Or.inl rfl) hne hvalues
  have hclosed := tree.count_treePieces config (Or.inr rfl) hne hvalues
  rw [Node.encoding_tree hmode]
  constructor
  · rintro ⟨hbalanced, hpairs⟩ hshown
    have hwhole := hbalanced.opened_eq_closed
    rw [if_pos hshown] at hopened hclosed
    rw [← Text.parenthesisFree_flatten, Text.parenthesisFree_iff_count]
    omega
  · intro hliterals
    refine ⟨tree.balanced_treePieces config hnames hliterals, ?_⟩
    rw [hopened, hfree.1]
    split
    · next hshown =>
      have hnone := Text.parenthesisFree_iff_count.mp
        (Text.parenthesisFree_flatten.mpr (hliterals hshown))
      rw [hnone.1, Nat.add_zero]
    · rfl

/-- A name and a string in subtokens, and a block without children. -/
theorem balanced_encoding_iff_setKind :
    ∃ tree, parse [] "(setKind \"a b\" \x7b\x7d)".toList = .ok tree ∧
      (tree.encoding ⟨true, .tree, true⟩).Balanced ∧
      (tree.encoding ⟨true, .tree, true⟩).count '(' = tree.pairs true := by
  have hparse : parse [] "(setKind \"a b\" \x7b\x7d)".toList =
      .ok (.composite .program [.composite .list [.identifier "setKind".toList,
        .literal "\"a b\"".toList, .composite .block []]]) := by
    decide +kernel
  exact ⟨_, hparse, (balanced_encoding_iff hparse rfl).mpr (by decide +kernel)⟩

/-- A string with a closing parenthesis closes one that no node has opened. -/
theorem not_balanced_encoding_parenthesis :
    ∃ tree, parse [] "(say \")\")".toList = .ok tree ∧
      tree.encoding (.tree true) = "((say \")\" ))".toList ∧
      ¬ (tree.encoding (.tree true)).Balanced ∧
      ¬ (tree.encoding ⟨true, .tree, true⟩).Balanced := by
  have hparse : parse [] "(say \")\")".toList =
      .ok (.composite .program [.composite .list [.identifier "say".toList,
        .literal "\")\"".toList]]) := by
    decide +kernel
  exact ⟨_, hparse, by decide +kernel, by decide +kernel, by decide +kernel⟩

end Script

end TokenCorpus
