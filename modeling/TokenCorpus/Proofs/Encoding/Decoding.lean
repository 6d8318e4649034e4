import TokenCorpus.Proofs.Encoding.Pieces
import TokenCorpus.Proofs.Text.Subtokens

/-!
Decoding the tree encoding.

The tree encoding tells how the nodes of a tree nest and what its leaves hold, and no more: that is
the skeleton of the tree. A decoder first cuts an encoding into marks, the parentheses and the
leaves, and then gathers the marks into a skeleton. It finds the end of each leaf because no leaf
holds a blank or a bracket.
-/

namespace TokenCorpus

/-! ## Skeletons -/

/-- What the tree encoding tells of a tree. A leaf has its text, or its subtokens. -/
inductive Skeleton where
  | leaf (words : List Text)
  | node (children : List Skeleton)
  deriving Repr, Inhabited

/-- What is left of a leaf. One without text looks like a composite node without children. -/
def leafSkeleton (config : EncodingConfig) (text : Text) : Skeleton :=
  if text = [] then .node []
  else .leaf (if config.subtokenize then subtokensOfText text else [text])

mutual

/-- What is left of a tree: the kinds of its composite nodes are lost, and so are the literals that
are suppressed. -/
def Node.skeleton (config : EncodingConfig) : Node → Skeleton
  | .identifier name => leafSkeleton config name
  | .literal value => if config.includeLiterals then leafSkeleton config value else .node []
  | .composite _ children => .node (skeletonAll config children)

def skeletonAll (config : EncodingConfig) : List Node → List Skeleton
  | [] => []
  | node :: nodes => node.skeleton config :: skeletonAll config nodes

end

mutual

/-- The texts of the leaves, suppressed or not. -/
def Node.leafTexts : Node → List Text
  | .identifier name => [name]
  | .literal value => [value]
  | .composite _ children => leafTextsAll children

def leafTextsAll : List Node → List Text
  | [] => []
  | node :: nodes => node.leafTexts ++ leafTextsAll nodes

end

/-- A character that the encoding needs for nothing but the text of a leaf: no blank and no bracket. -/
def IsPlain (c : Char) : Prop := Text.isBlank c = false ∧ c ∉ "()[]".toList

instance (c : Char) : Decidable (IsPlain c) := by unfold IsPlain; infer_instance

/-- A tree whose leaves hold neither blanks nor brackets. -/
def Node.Plain (node : Node) : Prop := ∀ text ∈ node.leafTexts, ∀ c ∈ text, IsPlain c

instance (node : Node) : Decidable node.Plain :=
  decidable_of_iff (node.leafTexts.all fun text => text.all fun c => decide (IsPlain c))
    (by simp [Node.Plain])

theorem IsPlain.toLower {c : Char} (h : IsPlain c) : IsPlain c.toLower :=
  Text.toLower_keeps (by decide) h

/-! ## Marks -/

/-- A part of a tree encoding: a parenthesis, or a leaf with the space behind it. -/
inductive Mark where
  | opening
  | closing
  | leaf (words : List Text)
  deriving DecidableEq, Repr

/-- The text of a mark. -/
def Mark.text (subtokenize : Bool) : Mark → Text
  | opening => ['(']
  | closing => [')']
  | leaf words =>
    (if subtokenize then '[' :: (Text.spaced words ++ [']']) else Text.spaced words) ++ [' ']

mutual

/-- The marks of a skeleton, from left to right. -/
def Skeleton.marks : Skeleton → List Mark
  | .leaf words => [.leaf words]
  | .node children => .opening :: (marksAll children ++ [.closing])

def marksAll : List Skeleton → List Mark
  | [] => []
  | skeleton :: skeletons => skeleton.marks ++ marksAll skeletons

end

theorem flatten_leafPieces (config : EncodingConfig) (text : Text) :
    (leafPieces config text).flatten =
      (leafSkeleton config text).marks.flatMap (Mark.text config.subtokenize) := by
  rw [leafPieces, leafSkeleton]
  split
  · rfl
  · cases config.subtokenize with
    | true => simp [Skeleton.marks, Mark.text]
    | false => simp [Skeleton.marks, Mark.text]

mutual

theorem Node.flatten_treePieces (config : EncodingConfig) :
    (node : Node) → (node.treePieces config).flatten =
      (node.skeleton config).marks.flatMap (Mark.text config.subtokenize)
  | .identifier name => flatten_leafPieces config name
  | .literal value => by
    rw [Node.treePieces, Node.skeleton]
    split
    · exact flatten_leafPieces config value
    · rfl
  | .composite kind children => by
    rw [Node.treePieces, Node.skeleton, Skeleton.marks, List.flatten_cons, List.flatten_append,
      flatten_treePiecesAll config children]
    simp [Mark.text]

theorem flatten_treePiecesAll (config : EncodingConfig) :
    (nodes : List Node) → (treePiecesAll config nodes).flatten =
      (marksAll (skeletonAll config nodes)).flatMap (Mark.text config.subtokenize)
  | [] => rfl
  | node :: nodes => by
    rw [treePiecesAll, skeletonAll, marksAll, List.flatten_append, List.flatMap_append,
      Node.flatten_treePieces config node, flatten_treePiecesAll config nodes]

end

/-- The tree encoding is the text of the marks of the skeleton, so trees with the same skeleton have
the same encoding. -/
theorem Node.encoding_eq_marks {config : EncodingConfig} (hmode : config.mode = .tree) (node : Node) :
    node.encoding config = (node.skeleton config).marks.flatMap (Mark.text config.subtokenize) := by
  rw [encoding_tree hmode, flatten_treePieces]

/-! ## Cutting an encoding into marks -/

/-- The marks of an encoding. A leaf ends with its bracket if it begins with one, and with a space
otherwise. -/
def scanMarks : Text → List Mark
  | [] => []
  | c :: r =>
    if c = '(' then .opening :: scanMarks r
    else if c = ')' then .closing :: scanMarks r
    else if c = '[' then
      .leaf (Text.words (r.takeWhile (· ≠ ']'))) :: scanMarks ((r.dropWhile (· ≠ ']')).drop 2)
    else .leaf [c :: r.takeWhile (· ≠ ' ')] :: scanMarks ((r.dropWhile (· ≠ ' ')).drop 1)
termination_by t => t.length
decreasing_by
  · exact Nat.lt_succ_self _
  · exact Nat.lt_succ_self _
  · have hdrop := (List.dropWhile_suffix (l := r) (· ≠ ']')).length_le
    simp only [List.length_drop, List.length_cons]
    omega
  · have hdrop := (List.dropWhile_suffix (l := r) (· ≠ ' ')).length_le
    simp only [List.length_drop, List.length_cons]
    omega

/-- A mark whose end can be found: its words are plain and not empty, and there is one where no
bracket shows how many there are. -/
def Mark.Legible (subtokenize : Bool) : Mark → Prop
  | opening | closing => True
  | leaf words =>
    (∀ word ∈ words, word ≠ [] ∧ ∀ c ∈ word, IsPlain c) ∧
      (subtokenize = false → ∃ word, words = [word])

theorem scanMarks_leaf {subtokenize : Bool} {words : List Text}
    (h : (Mark.leaf words).Legible subtokenize) (rest : Text) :
    scanMarks ((Mark.leaf words).text subtokenize ++ rest) = .leaf words :: scanMarks rest := by
  obtain ⟨hwords, hone⟩ := h
  cases subtokenize with
  | true =>
    have hinner : ∀ c ∈ Text.spaced words, decide (c ≠ ']') = true := by
      intro c hc
      obtain rfl | ⟨word, hword, hc⟩ := Text.mem_spaced hc
      · rfl
      · have hplain := (hwords word hword).2 c hc
        rw [decide_eq_true_eq]
        rintro rfl
        exact absurd hplain.2 (by decide)
    have hread : (Text.spaced words).words = words :=
      Text.words_spaced_of_isWord fun word hword =>
        ⟨(hwords word hword).1, fun c hc => ((hwords word hword).2 c hc).1⟩
    have htext : (Mark.leaf words).text true ++ rest =
        '[' :: (Text.spaced words ++ ']' :: ' ' :: rest) := by simp [Mark.text]
    rw [htext, scanMarks, if_neg (by decide), if_neg (by decide), if_pos rfl,
      Text.takeWhile_append_of_stop _ _ (by decide), Text.dropWhile_append_of_stop _ _ (by decide),
      List.takeWhile_eq_self_iff.mpr hinner, List.dropWhile_eq_nil_iff.mpr hinner, hread]
    rfl
  | false =>
    obtain ⟨word, rfl⟩ := hone rfl
    obtain ⟨hne, hplain⟩ := hwords word (List.mem_singleton.mpr rfl)
    obtain ⟨c, r, rfl⟩ := List.exists_cons_of_ne_nil hne
    obtain ⟨hc, hr⟩ := List.forall_mem_cons.mp hplain
    have hbracket : c ≠ '(' ∧ c ≠ ')' ∧ c ≠ '[' := by
      refine ⟨?_, ?_, ?_⟩ <;> rintro rfl <;> exact absurd hc.2 (by decide)
    have hspace : ∀ d ∈ r, decide (d ≠ ' ') = true := by
      intro d hd
      rw [decide_eq_true_eq]
      rintro rfl
      exact absurd (hr _ hd).1 (by decide)
    have htext : (Mark.leaf [c :: r]).text false ++ rest = c :: (r ++ ' ' :: rest) := by
      simp [Mark.text]
    rw [htext, scanMarks, if_neg hbracket.1, if_neg hbracket.2.1, if_neg hbracket.2.2,
      Text.takeWhile_append_of_stop _ _ (by decide), Text.dropWhile_append_of_stop _ _ (by decide),
      List.takeWhile_eq_self_iff.mpr hspace, List.dropWhile_eq_nil_iff.mpr hspace]
    rfl

/-- An encoding is cut into the marks that it was written from. -/
theorem scanMarks_flatMap {subtokenize : Bool} {marks : List Mark}
    (h : ∀ mark ∈ marks, mark.Legible subtokenize) :
    scanMarks (marks.flatMap (Mark.text subtokenize)) = marks := by
  induction marks with
  | nil => rw [List.flatMap_nil, scanMarks]
  | cons mark marks ih =>
    have hrest := ih fun mark hmem => h mark (List.mem_cons_of_mem _ hmem)
    rw [List.flatMap_cons]
    cases mark with
    | opening => rw [Mark.text, List.singleton_append, scanMarks, if_pos rfl, hrest]
    | closing =>
      rw [Mark.text, List.singleton_append, scanMarks, if_neg (by decide), if_pos rfl, hrest]
    | leaf words => rw [scanMarks_leaf (h _ List.mem_cons_self), hrest]

/-! ## Gathering marks into a skeleton -/

/-- Gathers marks into rows. The first row is the innermost, the last that of the marks outside all
parentheses; each is held in reverse. -/
def gather : List (List Skeleton) → List Mark → Option (List Skeleton)
  | [row], [] => some row.reverse
  | row :: outer, .leaf words :: marks => gather ((.leaf words :: row) :: outer) marks
  | rows, .opening :: marks => gather ([] :: rows) marks
  | row :: parent :: outer, .closing :: marks => gather ((.node row.reverse :: parent) :: outer) marks
  | _, _ => none

mutual

/-- The marks of a skeleton add it to the innermost row. -/
theorem gather_marks (row : List Skeleton) (outer : List (List Skeleton)) (rest : List Mark) :
    (skeleton : Skeleton) →
      gather (row :: outer) (skeleton.marks ++ rest) = gather ((skeleton :: row) :: outer) rest
  | .leaf words => by rw [Skeleton.marks, List.singleton_append, gather]
  | .node children => by
    rw [Skeleton.marks, List.cons_append, gather, List.append_assoc,
      gather_marksAll [] (row :: outer) _ children, List.singleton_append, gather]
    simp

theorem gather_marksAll (row : List Skeleton) (outer : List (List Skeleton)) (rest : List Mark) :
    (skeletons : List Skeleton) →
      gather (row :: outer) (marksAll skeletons ++ rest) =
        gather ((skeletons.reverse ++ row) :: outer) rest
  | [] => rfl
  | skeleton :: skeletons => by
    rw [marksAll, List.append_assoc, gather_marks row outer _ skeleton,
      gather_marksAll (skeleton :: row) outer rest skeletons, List.reverse_cons, List.append_assoc,
      List.singleton_append]

end

/-- The skeleton that an encoding tells of, if the text is the encoding of one tree. -/
def decodeSkeleton (t : Text) : Option Skeleton :=
  match gather [[]] (scanMarks t) with
  | some [skeleton] => some skeleton
  | _ => none

theorem leafSkeleton_legible (config : EncodingConfig) {text : Text} (h : ∀ c ∈ text, IsPlain c) :
    ∀ mark ∈ (leafSkeleton config text).marks, mark.Legible config.subtokenize := by
  rw [leafSkeleton]
  split
  · intro mark hmem
    simp only [Skeleton.marks, marksAll, List.nil_append, List.mem_cons, List.not_mem_nil,
      or_false] at hmem
    obtain rfl | rfl := hmem
    · trivial
    · trivial
  · next hne =>
    intro mark hmem
    rw [List.mem_singleton.mp hmem]
    cases config.subtokenize with
    | false => exact ⟨by simpa [hne] using h, fun _ => ⟨text, rfl⟩⟩
    | true =>
      refine ⟨?_, by simp⟩
      have hwords : text.words = [text] := Text.IsWord.words_eq ⟨hne, fun c hc => (h c hc).1⟩
      intro word hword
      refine subtokens_spec (P := IsPlain) (fun _ => IsPlain.toLower) hne h word ?_
      simpa [subtokensOfText, hwords] using hword

mutual

theorem Node.skeleton_legible (config : EncodingConfig) :
    (node : Node) → node.Plain →
      ∀ mark ∈ (node.skeleton config).marks, mark.Legible config.subtokenize
  | .identifier name, h => leafSkeleton_legible config (h name (List.mem_singleton.mpr rfl))
  | .literal value, h => by
    rw [Node.skeleton]
    split
    · exact leafSkeleton_legible config (h value (List.mem_singleton.mpr rfl))
    · exact leafSkeleton_legible config fun _ hc => absurd hc List.not_mem_nil
  | .composite kind children, h => by
    have hall := skeletonAll_legible config children h
    intro mark hmem
    rw [Node.skeleton, Skeleton.marks, List.mem_cons, List.mem_append, List.mem_singleton] at hmem
    obtain rfl | hmem | rfl := hmem
    · trivial
    · exact hall mark hmem
    · trivial

theorem skeletonAll_legible (config : EncodingConfig) :
    (nodes : List Node) → (∀ text ∈ leafTextsAll nodes, ∀ c ∈ text, IsPlain c) →
      ∀ mark ∈ marksAll (skeletonAll config nodes), mark.Legible config.subtokenize
  | [], _ => by simp [skeletonAll, marksAll]
  | node :: nodes, h => by
    have hfirst := Node.skeleton_legible config node
      fun text htext => h text (List.mem_append_left _ htext)
    have hrest := skeletonAll_legible config nodes
      fun text htext => h text (List.mem_append_right _ htext)
    intro mark hmem
    rw [skeletonAll, marksAll, List.mem_append] at hmem
    exact hmem.elim (hfirst mark) (hrest mark)

end

theorem Node.decodeSkeleton_encoding {config : EncodingConfig} (hmode : config.mode = .tree)
    {node : Node} (hplain : node.Plain) :
    decodeSkeleton (node.encoding config) = some (node.skeleton config) := by
  have hgather := gather_marks [] [] [] (node.skeleton config)
  rw [List.append_nil] at hgather
  rw [decodeSkeleton, encoding_eq_marks hmode,
    scanMarks_flatMap (skeleton_legible config node hplain), hgather]
  rfl

/-- Trees whose leaves hold neither blanks nor brackets have the same tree encoding if and only if
they have the same skeleton, and the skeleton can be decoded from the encoding. -/
theorem encoding_eq_iff_skeleton_eq {config : EncodingConfig} (hmode : config.mode = .tree)
    {a b : Node} (ha : a.Plain) (hb : b.Plain) :
    (a.encoding config = b.encoding config ↔ a.skeleton config = b.skeleton config) ∧
      decodeSkeleton (a.encoding config) = some (a.skeleton config) := by
  have hdecode := Node.decodeSkeleton_encoding hmode ha
  refine ⟨⟨fun h => ?_, fun h => ?_⟩, hdecode⟩
  · rw [h, Node.decodeSkeleton_encoding hmode hb, Option.some_inj] at hdecode
    exact hdecode.symm
  · rw [Node.encoding_eq_marks hmode, Node.encoding_eq_marks hmode, h]

/-- A name in two styles, and a suppressed literal beside an empty node: one skeleton. -/
theorem encoding_eq_iff_skeleton_eq_setKind :
    let config : EncodingConfig := ⟨false, .tree, true⟩
    let a : Node := .composite .list [.identifier "setKind".toList, .literal "1".toList]
    let b : Node := .composite .block [.identifier "set_kind".toList, .composite .quote []]
    config.mode = .tree ∧ a.Plain ∧ b.Plain ∧ a.encoding config = "([set kind] ())".toList ∧
      b.encoding config = a.encoding config ∧
      decodeSkeleton (a.encoding config) =
        some (.node [.leaf ["set".toList, "kind".toList], .node []]) := by
  intro config a b
  have ha : a.Plain := by decide
  have hb : b.Plain := by decide
  have hcamel : subtokensOfText "setKind".toList = ["set".toList, "kind".toList] := by
    decide +kernel
  have hsnake : subtokensOfText "set_kind".toList = ["set".toList, "kind".toList] := by
    decide +kernel
  have hskeleton : a.skeleton config = .node [.leaf ["set".toList, "kind".toList], .node []] := by
    simp only [a, config, Node.skeleton, skeletonAll, leafSkeleton, hcamel]
    rfl
  have hskeleton' : b.skeleton config = a.skeleton config := by
    rw [hskeleton]
    simp only [b, config, Node.skeleton, skeletonAll, leafSkeleton, hsnake]
    rfl
  have hmode : config.mode = .tree := rfl
  obtain ⟨-, hdecode⟩ := encoding_eq_iff_skeleton_eq hmode ha hb
  have hsame := (encoding_eq_iff_skeleton_eq hmode hb ha).1.mpr hskeleton'
  exact ⟨hmode, ha, hb, by decide +kernel, hsame, hskeleton ▸ hdecode⟩

end TokenCorpus
