import TokenCorpus.Proofs.Script.Reading
import TokenCorpus.Proofs.Script.Trivia

/-!
The parser accepts the language of scripts, and gives each script its tree.

What is read can be laid out again as it stood, and what is laid out is read. The first is an
induction on the text, as the parser descends on it; the second is an induction on the spelling.
-/

namespace TokenCorpus.Script

theorem OneLexeme.proper {node : Node} {l : Lexeme} (h : OneLexeme node l) : l.Proper := by
  obtain ⟨c, t, htext, _, hc, hcomment⟩ := h.head_not_mark
  exact ⟨c, t, htext, hc, hcomment⟩

theorem Brackets.proper {kind : Kind} {opening closing : Char} (h : Brackets kind opening closing) :
    (Lexeme.mark opening).Proper ∧ (Lexeme.mark closing).Proper := by
  cases h with
  | list => exact ⟨⟨_, _, rfl, by decide, by decide⟩, ⟨_, _, rfl, by decide, by decide⟩⟩
  | block => exact ⟨⟨_, _, rfl, by decide, by decide⟩, ⟨_, _, rfl, by decide, by decide⟩⟩

theorem Spells.cons {node : Node} {nodes : List Node} {inner ls : List Lexeme}
    (h : Spells [node] inner) (hnodes : Spells nodes ls) : Spells (node :: nodes) (inner ++ ls) := by
  cases h with
  | one hone hnil =>
    cases hnil
    exact .one hone hnodes
  | quote hquoted hnil =>
    cases hnil
    rw [List.append_nil]
    exact .quote hquoted hnodes
  | group hkind hchildren hnil =>
    cases hnil
    rw [List.cons_append, List.append_assoc]
    exact .group hkind hchildren hnodes

/-! ## What is read has a spelling -/

/-- The nodes have a spelling whose layouts before `rest` are layouts before the end of `s`. -/
def LaidOut (s : Text) (nodes : List Node) (rest : Text) : Prop :=
  ∃ ls, Spells nodes ls ∧ ∀ more, Layout false more rest → Layout false (ls ++ more) s

theorem LaidOut.nil (s : Text) : LaidOut s [] s := ⟨[], .nil, fun _ h => h⟩

theorem LaidOut.of_skipTrivia {s rest : Text} {nodes : List Node}
    (h : LaidOut (skipTrivia s) nodes rest) : LaidOut s nodes rest := by
  obtain ⟨ls, hls, hlayout⟩ := h
  exact ⟨ls, hls, fun more hmore => (hlayout more hmore).of_skipTrivia⟩

theorem LaidOut.skip_rest {s rest : Text} {nodes : List Node} (h : LaidOut s nodes rest) :
    LaidOut s nodes (skipTrivia rest) := by
  obtain ⟨ls, hls, hlayout⟩ := h
  exact ⟨ls, hls, fun more hmore => hlayout more hmore.of_skipTrivia⟩

theorem LaidOut.cons {s rest t : Text} {node : Node} {nodes : List Node}
    (h : LaidOut s [node] rest) (hnodes : LaidOut rest nodes t) : LaidOut s (node :: nodes) t := by
  obtain ⟨ls, hls, hlayout⟩ := h
  obtain ⟨ls', hls', hlayout'⟩ := hnodes
  refine ⟨ls ++ ls', hls.cons hls', fun more hmore => ?_⟩
  rw [List.append_assoc]
  exact hlayout _ (hlayout' more hmore)

theorem laidOut_lexeme {l : Lexeme} {node : Node} {rest : Text} (h : OneLexeme node l)
    (hends : l.isWord → endsWord rest) : LaidOut (l.text ++ rest) [node] rest := by
  refine ⟨[l], .one h .nil, fun more hmore => ?_⟩
  exact .next .nil nofun (hmore.of_endsWord hends)

theorem LaidOut.quote {t rest : Text} {node : Node} (h : LaidOut t [node] rest) :
    LaidOut ('\'' :: t) [.composite .quote [node]] rest := by
  obtain ⟨ls, hls, hlayout⟩ := h
  refine ⟨_, .quote hls .nil, fun more hmore => ?_⟩
  rw [List.append_nil]
  exact .next .nil nofun (hlayout more hmore)

theorem LaidOut.group {kind : Kind} {opening closing : Char} {t rest : Text} {children : List Node}
    (hkind : Brackets kind opening closing) (h : LaidOut t children (closing :: rest)) :
    LaidOut (opening :: t) [.composite kind children] rest := by
  obtain ⟨ls, hls, hlayout⟩ := h
  refine ⟨_, .group hkind hls .nil, fun more hmore => ?_⟩
  rw [List.cons_append, List.append_assoc]
  have hclosing : Layout false (.mark closing :: more) (closing :: rest) := .next .nil nofun hmore
  exact .next .nil nofun (hlayout _ hclosing)

/-- Nodes laid out to the end of a text make it a script. -/
theorem LaidOut.renders {s : Text} {nodes : List Node} (h : LaidOut s nodes []) :
    Renders (.composite .program nodes) s := by
  obtain ⟨ls, hls, hlayout⟩ := h
  have hend : Layout false [] [] := .last ⟨[], [], .nil, Or.inl rfl, rfl⟩
  have hwhole := hlayout [] hend
  rw [List.append_nil] at hwhole
  exact ⟨nodes, ls, rfl, hls, hwhole⟩

theorem closeRow_eq_some {kind : Kind} {closing : Char} {inner : List Node × Text} {node : Node}
    {rest : Text} (h : closeRow kind closing inner = some (node, rest)) :
    node = .composite kind inner.1 ∧ inner.2 = closing :: rest := by
  obtain ⟨nodes, t⟩ := inner
  cases t with
  | nil => cases h
  | cons d t =>
    simp only [closeRow, Option.ite_none_right_eq_some, Option.some.injEq, Prod.mk.injEq] at h
    obtain ⟨rfl, rfl, rfl⟩ := h
    exact ⟨rfl, rfl⟩

/-! ## Reading one node after the other -/

/-- Read one after the other from `s` on, the nodes leave `rest`. -/
inductive Reads : Text → List Node → Text → Prop
  | nil {s : Text} : Reads s [] s
  | cons {s t rest : Text} {node : Node} {nodes : List Node}
      (h : readOne (skipTrivia s) = some (node, t)) (hnodes : Reads t nodes rest) :
      Reads s (node :: nodes) rest

theorem Reads.readRow {s rest : Text} {nodes : List Node} (h : Reads s nodes rest) :
    readRow (skipTrivia s) =
      (nodes ++ (readRow (skipTrivia rest)).1, (readRow (skipTrivia rest)).2) := by
  induction h with
  | nil => rfl
  | cons hone _ ih => rw [readRow_of_some hone, ih]; rfl

theorem Reads.readOne {s rest : Text} {node : Node} (h : Reads s [node] rest) :
    readOne (skipTrivia s) = some (node, rest) := by
  cases h with
  | cons hone hnil => cases hnil; exact hone

theorem readRow_closing {kind : Kind} {opening closing : Char}
    (hkind : Brackets kind opening closing) (t : Text) :
    Script.readRow (closing :: t) = ([], closing :: t) := by
  refine readRow_of_none (readOne_of_closing ?_)
  cases hkind with
  | list => exact Or.inl rfl
  | block => exact Or.inr rfl

/-- Nodes that are read up to a closing bracket are a group. -/
theorem readOne_closed {kind : Kind} {opening closing : Char} {t rest after : Text}
    {nodes : List Node} (hkind : Brackets kind opening closing) (hreads : Reads t nodes rest)
    (hclosing : skipTrivia rest = closing :: after) :
    Script.readOne (opening :: t) = some (.composite kind nodes, after) := by
  rw [readOne_group hkind, hreads.readRow, hclosing, readRow_closing hkind, List.append_nil,
    closeRow, if_pos rfl]

theorem exists_reads (t : Text) : ∃ rest, Reads t (readRow (skipTrivia t)).1 rest ∧
    (readRow (skipTrivia t)).2 = skipTrivia rest := by
  induction hn : t.length using Nat.strong_induction_on generalizing t with
  | _ n ih =>
    cases hread : readOne (skipTrivia t) with
    | none =>
      rw [readRow_of_none hread]
      exact ⟨t, .nil, rfl⟩
    | some found =>
      obtain ⟨node, after⟩ := found
      have hlt : after.length < n := by
        have := length_lt_of_readOne hread
        have := length_skipTrivia_le t
        omega
      obtain ⟨rest, hreads, hrest⟩ := ih _ hlt after rfl
      rw [readRow_of_some hread]
      exact ⟨rest, .cons hread hreads, hrest⟩

/-- What holds of leaves, and of a quoted expression and a group if it holds of all that is read in
them, holds of every expression that is read. -/
theorem readOne_induction {P : Text → Node → Text → Prop}
    (hleaf : ∀ {node : Node} {l : Lexeme} {rest : Text}, OneLexeme node l →
      (l.isWord → endsWord rest) → P (l.text ++ rest) node rest)
    (hquote : ∀ {t rest : Text} {node : Node}, Reads t [node] rest →
      (∀ s node rest, s.length ≤ t.length → readOne s = some (node, rest) → P s node rest) →
      P ('\'' :: t) (.composite .quote [node]) rest)
    (hgroup : ∀ {kind : Kind} {opening closing : Char} {t after rest : Text} {nodes : List Node},
      Brackets kind opening closing → Reads t nodes after →
      (∀ s node rest, s.length ≤ t.length → readOne s = some (node, rest) → P s node rest) →
      skipTrivia after = closing :: rest → P (opening :: t) (.composite kind nodes) rest)
    {s rest : Text} {node : Node} (h : readOne s = some (node, rest)) : P s node rest := by
  induction hn : s.length using Nat.strong_induction_on generalizing s rest node with
  | _ n ih =>
    have hbracket : ∀ {kind opening closing t}, Brackets kind opening closing → s = opening :: t →
        P s node rest := by
      intro kind opening closing t hkind hs
      rw [hs, readOne_group hkind] at h
      rw [hs, List.length_cons] at hn
      obtain ⟨rfl, hclosing⟩ := closeRow_eq_some h
      obtain ⟨after, hreads, hafter⟩ := exists_reads t
      rw [hs]
      exact hgroup hkind hreads (fun s' node rest hle hread => ih s'.length (by omega) hread rfl)
        (hafter.symm.trans hclosing)
    by_cases hmark : ∃ t, s = '\'' :: t
    · obtain ⟨t, rfl⟩ := hmark
      rw [readOne_quote] at h
      obtain ⟨⟨inner, r⟩, hinner, heq⟩ := Option.map_eq_some_iff.mp h
      obtain ⟨rfl, rfl⟩ := Prod.mk.inj heq
      rw [List.length_cons] at hn
      exact hquote (.cons hinner .nil) fun s' node rest hle hread =>
        ih s'.length (by omega) hread rfl
    by_cases hlist : ∃ t, s = '(' :: t
    · obtain ⟨t, ht⟩ := hlist
      exact hbracket .list ht
    by_cases hblock : ∃ t, s = '\x7b' :: t
    · obtain ⟨t, ht⟩ := hblock
      exact hbracket .block ht
    rw [readOne_of_ne (fun t ht => hmark ⟨t, ht⟩) (fun t ht => hlist ⟨t, ht⟩)
      (fun t ht => hblock ⟨t, ht⟩)] at h
    obtain ⟨l, hone, rfl, hends⟩ := leafAt_eq_some_iff.mp h
    exact hleaf hone hends

/-! ## What is read is laid out -/

theorem Reads.laidOut {t rest : Text} {nodes : List Node} (h : Reads t nodes rest)
    (hone : ∀ s node rest, s.length ≤ t.length → Script.readOne s = some (node, rest) →
      LaidOut s [node] rest) : LaidOut t nodes rest := by
  induction h with
  | @nil s => exact .nil s
  | @cons s t rest node nodes hread _ ih =>
    have hskip := length_skipTrivia_le s
    have hlt := length_lt_of_readOne hread
    have hfirst := hone _ node t hskip hread
    exact hfirst.of_skipTrivia.cons <| ih fun s' node rest hle => hone s' node rest (by omega)

theorem laidOut_readOne {s rest : Text} {node : Node} (h : readOne s = some (node, rest)) :
    LaidOut s [node] rest := by
  refine readOne_induction (fun hone hends => laidOut_lexeme hone hends)
    (fun hreads ih => (hreads.laidOut ih).quote) ?_ h
  intro kind opening closing t after rest nodes hkind hreads ih hclosing
  have hinner := (hreads.laidOut ih).skip_rest
  rw [hclosing] at hinner
  exact hinner.group hkind

/-! ## What is laid out is read -/

/-- Nodes are read from each layout of their spelling, whatever lexemes come after it. -/
theorem Spells.reads {nodes : List Node} {ls : List Lexeme} (h : Spells nodes ls) :
    ∀ {w : Bool} {more : List Lexeme} {s : Text}, Layout w (ls ++ more) s →
      ∃ w' rest, Reads s nodes rest ∧ Layout w' more rest := by
  induction h with
  | nil => exact fun hlayout => ⟨_, _, .nil, hlayout⟩
  | @one node l _ _ hone _ ih =>
    intro w more s hlayout
    obtain ⟨t, hskip, hrest⟩ := hlayout.skip_cons hone.proper
    obtain ⟨w', rest, hreads, hmore⟩ := ih hrest
    have hends : l.isWord → endsWord t := by
      intro hword
      rw [hword] at hrest
      exact hrest.endsWord
    have hread : readOne (skipTrivia s) = some (node, t) := by
      rw [hskip]
      exact readOne_lexeme hone hends
    exact ⟨w', rest, .cons hread hreads, hmore⟩
  | @quote node nodes inner ls _ _ ihquoted ih =>
    intro w more s hlayout
    rw [List.cons_append, List.append_assoc] at hlayout
    obtain ⟨t, hskip, hrest⟩ := hlayout.skip_cons ⟨_, _, rfl, by decide, by decide⟩
    obtain ⟨_, u, hquoted, hafter⟩ := ihquoted hrest
    obtain ⟨w', rest, hreads, hmore⟩ := ih hafter
    refine ⟨w', rest, .cons (t := u) ?_ hreads, hmore⟩
    rw [hskip, Lexeme.text, List.singleton_append, readOne_quote, hquoted.readOne]
    rfl
  | @group kind opening closing children nodes inner ls hkind _ _ ihchildren ih =>
    intro w more s hlayout
    rw [List.cons_append, List.append_assoc, List.cons_append] at hlayout
    obtain ⟨t, hskip, hrest⟩ := hlayout.skip_cons hkind.proper.1
    obtain ⟨_, u, hchildren, hclose⟩ := ihchildren hrest
    obtain ⟨v, hskip', hafter⟩ := hclose.skip_cons hkind.proper.2
    obtain ⟨w', rest, hreads, hmore⟩ := ih hafter
    refine ⟨w', rest, .cons (t := v) ?_ hreads, hmore⟩
    rw [hskip]
    exact readOne_closed hkind hchildren hskip'

/-! ## Whole scripts -/

theorem program_eq_ok_iff {source : Text} {tree : Node} :
    program source = .ok tree ↔ (readRow (skipTrivia source)).2 = [] ∧
      tree = .composite .program (readRow (skipTrivia source)).1 := by
  rw [← read_row_eq_readRow _ (.start source)]
  unfold program Row.read
  dsimp only
  split
  · next h => simp [h, eq_comm]
  · next h => simp [h]

theorem program_of_reads {source rest : Text} {nodes : List Node} (h : Reads source nodes rest)
    (hrest : skipTrivia rest = []) : program source = .ok (.composite .program nodes) := by
  have hread := h.readRow
  rw [hrest, readRow_of_none readOne_nil, List.append_nil] at hread
  rw [program_eq_ok_iff, hread]
  exact ⟨rfl, rfl⟩

theorem parse_eq_ok_iff_program {path source : Text} {tree : Node} :
    parse path source = .ok tree ↔ program source = .ok tree := by
  unfold parse
  cases program source with
  | error a => simp [Except.mapError]
  | ok tree' => simp [Except.mapError]

theorem parse_eq_error_iff {path source : Text} {e : ParseError} :
    parse path source = .error e ↔ ∃ a, program source = .error a ∧ refusal path source a = e := by
  unfold parse
  cases program source with
  | error a => simp [Except.mapError]
  | ok tree => simp [Except.mapError]

/-- Whether a text has a tree, and which, does not depend on the path. -/
theorem parse_eq_ok_congr {path path' source : Text} {tree : Node} :
    parse path source = .ok tree ↔ parse path' source = .ok tree := by
  rw [parse_eq_ok_iff_program, parse_eq_ok_iff_program]

theorem renders_of_program {source : Text} {tree : Node} (h : program source = .ok tree) :
    Renders tree source := by
  obtain ⟨hrest, rfl⟩ := program_eq_ok_iff.mp h
  obtain ⟨rest, hreads, hskip⟩ := exists_reads source
  have hlaid := (hreads.laidOut fun _ _ _ _ hread => laidOut_readOne hread).skip_rest
  rw [← hskip, hrest] at hlaid
  exact hlaid.renders

theorem program_of_renders {source : Text} {tree : Node} (h : Renders tree source) :
    program source = .ok tree := by
  obtain ⟨nodes, ls, rfl, hspells, hlayout⟩ := h
  rw [← List.append_nil ls] at hlayout
  obtain ⟨_, rest, hreads, hend⟩ := hspells.reads hlayout
  exact program_of_reads hreads hend.skip_nil

/-- The parser accepts exactly the texts that render a tree, and answers with that tree. -/
theorem parse_eq_ok_iff_renders (path source : Text) (tree : Node) :
    parse path source = .ok tree ↔ Renders tree source := by
  rw [parse_eq_ok_iff_program]
  exact ⟨renders_of_program, program_of_renders⟩

end TokenCorpus.Script
