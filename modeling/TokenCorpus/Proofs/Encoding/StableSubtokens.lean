import TokenCorpus.Proofs.Text.Cuts
import TokenCorpus.Proofs.Encoding.Subtokenized

/-!
Subtokens are cut no further.

A subtoken is a row of underscores, a row of characters of one class other than the capitals, or a
token that is left whole. In none of them is a cut, so whoever cuts a text of subtokens gets the same
subtokens again. They hold no blanks either, so a flat document of subtokens can be read back.
-/

namespace TokenCorpus

namespace Subtoken

/-! ## Lowercase -/

/-- The class of the lowercase of a character. -/
def CharClass.lowered : CharClass → CharClass
  | .upper => .lower
  | k => k

theorem CharClass.lowered_ne_upper (k : CharClass) : k.lowered ≠ .upper := by
  cases k <;> simp [lowered]

theorem isLower_toLower {c : Char} (hc : c.isUpper) : c.toLower.isLower := by
  have hcapital : ∀ n < 26, (Char.ofNat (65 + n)).toLower.isLower := by decide
  obtain ⟨n, hn, rfl⟩ := exists_of_isUpper hc
  exact hcapital n hn

theorem toLower_of_class {c : Char} {k : CharClass} (hc : charClass? c = some k)
    (hk : k ≠ .upper) : c.toLower = c := by
  refine toLower_of_not_isUpper ?_
  rw [Bool.eq_false_iff, ne_eq, ← charClass?_eq_upper, hc, Option.some_inj]
  exact hk

theorem charClass?_toLower {c : Char} {k : CharClass} (hc : charClass? c = some k) :
    charClass? c.toLower = some k.lowered := by
  by_cases hk : k = .upper
  · subst hk
    exact charClass?_eq_lower.mpr (isLower_toLower (charClass?_eq_upper.mp hc))
  · rw [toLower_of_class hc hk, hc]
    cases k with
    | upper => exact absurd rfl hk
    | _ => rfl

/-! ## Rows -/

/-- A row of characters of one class, and not of capitals. -/
def IsRow (t : Text) : Prop := t ≠ [] ∧ ∃ k ≠ CharClass.upper, ∀ c ∈ t, charClass? c = some k

/-- A piece goes on within one class, or from capitals to lowercase letters. -/
theorem class_of_mem_piece {c : Char} {k : CharClass} (hc : charClass? c = some k) (rest : Text) :
    ∀ d ∈ (c :: rest).take (pieceLength (c :: rest)), charClass? d.toLower = some k.lowered := by
  induction rest generalizing c k with
  | nil => simpa [pieceLength, joins] using charClass?_toLower hc
  | cons d rest ih =>
    rw [pieceLength]
    split
    · next hjoins =>
      rw [List.take_succ_cons, List.forall_mem_cons]
      refine ⟨charClass?_toLower hc, ?_⟩
      obtain hsame | ⟨hupper, hlower⟩ := classes_of_joins hjoins
      · exact ih (hsame.symm.trans hc)
      · rw [charClass?_eq_upper.mpr hupper, Option.some_inj] at hc
        have hrest := ih (charClass?_eq_lower.mpr hlower)
        rw [← hc]
        exact hrest
    · simpa using charClass?_toLower hc

theorem isRow_of_mem_pieces {t piece : Text} (ht : ∀ c ∈ t, Cuttable c) (h : piece ∈ pieces t) :
    IsRow (piece.map Char.toLower) := by
  induction hn : t.length using Nat.strongRecOn generalizing t with
  | ind n ih =>
    cases t with
    | nil => simp [pieces] at h
    | cons c rest =>
      rw [List.length_cons] at hn
      by_cases hc : c = '_'
      · rw [pieces, if_pos hc] at h
        exact ih rest.length (by omega) (fun d hd => ht d (List.mem_cons_of_mem c hd)) h rfl
      · rw [pieces_cons hc] at h
        obtain rfl | hlater := List.mem_cons.mp h
        · obtain ⟨k, hk⟩ := Option.isSome_iff_exists.mp ((ht c List.mem_cons_self).resolve_left hc)
          have hpos := pieceLength_pos c rest
          have hne : (c :: rest).take (pieceLength (c :: rest)) ≠ [] := by
            simp only [ne_eq, List.take_eq_nil_iff, List.cons_ne_nil, or_false]
            omega
          refine ⟨mt List.map_eq_nil_iff.mp hne, k.lowered, k.lowered_ne_upper, fun d hd => ?_⟩
          obtain ⟨e, he, rfl⟩ := List.mem_map.mp hd
          exact class_of_mem_piece hk rest e he
        · have hpos := pieceLength_pos c rest
          refine ih _ ?_ (fun d hd => ht d (List.mem_of_mem_drop hd)) hlater rfl
          rw [List.length_drop, List.length_cons]
          omega

/-- There is no cut in a row. -/
theorem IsRow.pieces_eq {t : Text} (h : IsRow t) : pieces t = [t] := by
  obtain ⟨hne, k, hk, hclass⟩ := h
  obtain ⟨c, rest, rfl⟩ := List.exists_cons_of_ne_nil hne
  rw [List.forall_mem_cons] at hclass
  have hc : c ≠ '_' := by
    rintro rfl
    rw [charClass?_underscore] at hclass
    cases hclass.1
  have hall : rest.takeWhile (charClass? · = some k) = rest :=
    List.takeWhile_eq_self_iff.mpr (by simpa using hclass.2)
  have hlength : pieceLength (c :: rest) = (c :: rest).length := by
    rw [pieceLength_of_not_isUpper hclass.1 hk, hall, List.length_cons]
  rw [pieces_cons hc, hlength, List.take_length, List.drop_length]
  rfl

end Subtoken

open Subtoken

theorem subtokens_of_isRow {t : Text} (h : IsRow t) : subtokens t = [t] := by
  have hpieces := h.pieces_eq
  obtain ⟨hne, k, hk, hclass⟩ := h
  have hunderscore : '_' ∉ t := by
    intro hmem
    have hnone := hclass '_' hmem
    rw [charClass?_underscore] at hnone
    cases hnone
  have hwhole : ¬ LeftWhole t := by
    rintro (⟨c, hc, hnot⟩ | ⟨hlast, -⟩)
    · exact hnot (Or.inr (by rw [hclass c hc]; rfl))
    · exact hunderscore (List.mem_of_getLast? hlast)
  have hleading : leadingUnderscores t = [] :=
    if_neg fun hhead => hunderscore (List.mem_of_head? hhead)
  have hbare : t.dropWhile (· = '_') = t := by
    obtain ⟨c, rest, rfl⟩ := List.exists_cons_of_ne_nil hne
    refine List.dropWhile_cons_of_neg ?_
    rw [decide_eq_true_eq]
    rintro rfl
    exact hunderscore List.mem_cons_self
  have hlower : t.map Char.toLower = t :=
    (List.map_congr_left fun c hc => toLower_of_class (hclass c hc) hk).trans (List.map_id t)
  rw [subtokens_eq, if_neg hne, if_neg hwhole, hleading, hbare, hpieces]
  simp [hlower]

theorem subtokens_of_underscores {t : Text} (hne : t ≠ []) (h : ∀ c ∈ t, c = '_') :
    subtokens t = [t] := by
  have hwhole : ¬ LeftWhole t := by
    rintro (⟨c, hc, hnot⟩ | ⟨-, c, hc, hnot⟩)
    · exact hnot (Or.inl (h c hc))
    · exact hnot (h c hc)
  have hhead : t.head? = some '_' := by
    obtain ⟨c, rest, rfl⟩ := List.exists_cons_of_ne_nil hne
    rw [h c List.mem_cons_self, List.head?_cons]
  have htake : t.takeWhile (· = '_') = t := List.takeWhile_eq_self_iff.mpr (by simpa using h)
  have hdrop : t.dropWhile (· = '_') = [] := List.dropWhile_eq_nil_iff.mpr (by simpa using h)
  rw [subtokens_eq, if_neg hne, if_neg hwhole, leadingUnderscores, if_pos hhead, htake, hdrop]
  rfl

/-- A subtoken is its own only subtoken. -/
theorem subtokens_of_mem_subtokens {token part : Text} (h : part ∈ subtokens token) :
    subtokens part = [part] := by
  have hself := h
  rw [subtokens_eq] at h
  split at h
  · simp at h
  · next hne =>
    split at h
    · next hwhole =>
      rw [List.mem_singleton] at h
      rw [h, subtokens_eq, if_neg hne, if_pos hwhole]
    · next hwhole =>
      obtain hleading | hpiece := List.mem_append.mp h
      · rw [leadingUnderscores] at hleading
        split at hleading
        · next hhead =>
          obtain rfl := List.mem_singleton.mp hleading
          obtain ⟨rest, rfl⟩ := List.head?_eq_some_iff.mp hhead
          refine subtokens_of_underscores (by simp) fun c hc => ?_
          simpa using List.mem_takeWhile_imp hc
        · simp at hleading
      · obtain ⟨piece, hmem, rfl⟩ := List.mem_map.mp hpiece
        refine subtokens_of_isRow (isRow_of_mem_pieces (fun c hc => ?_) hmem)
        by_contra hnot
        exact hwhole (Or.inl ⟨c, (List.dropWhile_suffix _).mem hc, hnot⟩)

/-! ## Texts of subtokens -/

theorem subtokens_of_mem_subtokensOfText {s part : Text} (h : part ∈ subtokensOfText s) :
    subtokens part = [part] := by
  obtain ⟨word, -, hpart⟩ := List.mem_flatMap.mp h
  exact subtokens_of_mem_subtokens hpart

/-- Subtokens in a row have themselves as subtokens. -/
theorem flatMap_subtokensOfText {parts : List Text}
    (h : ∀ part ∈ parts, part.IsWord ∧ subtokens part = [part]) :
    parts.flatMap subtokensOfText = parts := by
  have hself : ∀ part ∈ parts, subtokensOfText part = [part] := by
    intro part hmem
    obtain ⟨hword, hpart⟩ := h part hmem
    rw [subtokensOfText, hword.words_eq, List.flatMap_singleton, hpart]
  rw [List.flatMap_congr hself, List.flatMap_singleton']

/-- The tokens of a tree in subtokens are words. -/
theorem Node.isWord_of_mem_tokenList {config : EncodingConfig} {node : Node} {token : Text}
    (h : token ∈ node.tokenList (config.subtokenized true)) : token.IsWord := by
  rw [tokenList_subtokenized] at h
  obtain ⟨whole, -, htoken⟩ := List.mem_flatMap.mp h
  exact isWord_of_mem_subtokensOfText htoken

theorem Text.spaced_eq_nil_iff {tokens : List Text} (h : ∀ token ∈ tokens, token.IsWord) :
    spaced tokens = [] ↔ tokens = [] := by
  have htrimmed := trimmed_spaced fun token hmem =>
    ⟨(h token hmem).1, Trimmed.of_forall (h token hmem).2⟩
  refine ⟨fun hnil => ?_, fun hnil => by rw [hnil, spaced_nil]⟩
  by_contra hne
  exact htrimmed.2 hne hnil

theorem Text.splitOn_spaced {tokens : List Text} (h : ∀ token ∈ tokens, token.IsWord)
    (hne : tokens ≠ []) : (spaced tokens).splitOn ' ' = tokens := by
  refine List.splitOn_intercalate ' ' (fun token hmem hspace => ?_) hne
  have hblank := (h token hmem).2 ' ' hspace
  rw [isBlank_space] at hblank
  cases hblank

/-- The subtokens of a text are words that are cut no further, so a row of them has the same
subtokens. A flat document of subtokens is empty only if it has no tokens, and otherwise falls at each
space into its tokens. -/
theorem subtokens_stable :
    (∀ s : Text, (∀ part ∈ subtokensOfText s, part.IsWord ∧ subtokens part = [part]) ∧
      subtokensOfText (Text.spaced (subtokensOfText s)) = subtokensOfText s) ∧
    ∀ (includeLiterals : Bool) (node : Node),
      (node.encoding ((EncodingConfig.flat includeLiterals).subtokenized true) = [] ↔
        node.tokens ((EncodingConfig.flat includeLiterals).subtokenized true) = []) ∧
      (node.tokens ((EncodingConfig.flat includeLiterals).subtokenized true) ≠ [] →
        (node.encoding ((EncodingConfig.flat includeLiterals).subtokenized true)).splitOn ' ' =
          node.tokens ((EncodingConfig.flat includeLiterals).subtokenized true)) := by
  constructor
  · intro s
    have hparts : ∀ part ∈ subtokensOfText s, part.IsWord ∧ subtokens part = [part] :=
      fun part hmem => ⟨isWord_of_mem_subtokensOfText hmem, subtokens_of_mem_subtokensOfText hmem⟩
    refine ⟨hparts, ?_⟩
    rw [subtokensOfText_spaced, flatMap_subtokensOfText hparts]
  · intro includeLiterals node
    have hwords : ∀ token ∈
        node.tokenList ((EncodingConfig.flat includeLiterals).subtokenized true), token.IsWord :=
      fun _ => Node.isWord_of_mem_tokenList
    rw [Node.encoding_flat rfl, Node.tokens_eq_tokenList]
    exact ⟨Text.spaced_eq_nil_iff hwords, Text.splitOn_spaced hwords⟩

/-- A token with underscores, a token that is left whole, and a string with a blank in it. -/
theorem subtokens_stable_setKind :
    subtokensOfText "__setKind v2.é".toList = ["__", "set", "kind", "v2.é"].map String.toList ∧
      Text.IsWord "v2.é".toList ∧ subtokens "v2.é".toList = ["v2.é".toList] ∧
      let tree := Node.composite .list [.identifier "set_kind".toList, .literal "\"a B\"".toList]
      let config := (EncodingConfig.flat true).subtokenized true
      tree.tokens config = ["set", "kind", "\"", "a", "b", "\""].map String.toList ∧
        (tree.encoding config).splitOn ' ' = tree.tokens config := by
  have hcut : subtokensOfText "__setKind v2.é".toList =
      ["__", "set", "kind", "v2.é"].map String.toList := by
    decide +kernel
  obtain ⟨hword, hself⟩ := (subtokens_stable.1 "__setKind v2.é".toList).1 "v2.é".toList
    (by rw [hcut]; decide +kernel)
  refine ⟨hcut, hword, hself, ?_⟩
  intro tree config
  have htokens : tree.tokens config =
      ["set", "kind", "\"", "a", "b", "\""].map String.toList := by
    decide +kernel
  exact ⟨htokens, (subtokens_stable.2 true tree).2 (by rw [htokens]; simp)⟩

end TokenCorpus
