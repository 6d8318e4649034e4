import TokenCorpus.Corpus.Manifest
import TokenCorpus.Proofs.Script.Rereading
import TokenCorpus.Proofs.Encoding.Subtokenized
import TokenCorpus.Proofs.Text.Subtokens

/-!
A manifest is no encoding of a script.

A manifest begins with a brace and goes on in the next line. A tree encoding begins with a
parenthesis, a row of subtokens holds no line end, and a row of whole tokens begins as a leaf does.
-/

namespace TokenCorpus

open Script

theorem BuildReport.manifest_eq (report : BuildReport) :
    ∃ rest, report.manifest = '\x7b' :: '\n' :: rest := by
  refine ⟨report.manifest.tail.tail, ?_⟩
  rw [manifest, toJson, Json.pretty, Json.prettyFields, Json.newline]
  · rfl
  · exact List.cons_ne_nil _ _

theorem newline_not_mem_encoding {config : EncodingConfig} (hmode : config.mode = .flat)
    (hsub : config.subtokenize = true) (tree : Node) : '\n' ∉ tree.encoding config := by
  have hconfig : config.subtokenized true = config := by rw [EncodingConfig.subtokenized, ← hsub]
  rw [Node.encoding_flat hmode, ← hconfig, Node.tokenList_subtokenized]
  intro hmem
  obtain hspace | ⟨token, htoken, hmem⟩ := Text.mem_spaced hmem
  · cases hspace
  · obtain ⟨leaf, -, htoken⟩ := List.mem_flatMap.mp htoken
    exact absurd (by decide : Text.isBlank '\n' = true) <|
      Bool.not_eq_true _ ▸ (isWord_of_mem_subtokensOfText htoken).2 '\n' hmem

/-- The text begins with something else than a brace. -/
def StartsUnbraced (t : Text) : Prop := ∃ c r, t = c :: r ∧ c ≠ '\x7b'

theorem Script.OneLexeme.startsUnbraced {node : Node} {l : Lexeme} (h : OneLexeme node l) :
    StartsUnbraced l.text := by
  obtain ⟨c, r, htext, hmark, -⟩ := h.head_not_mark
  refine ⟨c, r, htext, ?_⟩
  rintro rfl
  exact absurd hmark (by decide)

theorem head?_spaced {tokens : List Text} (h : ∀ token ∈ tokens, StartsUnbraced token) :
    (Text.spaced tokens).head? ≠ some '\x7b' := by
  cases tokens with
  | nil => exact nofun
  | cons token tokens =>
    obtain ⟨c, r, rfl, hc⟩ := h token List.mem_cons_self
    have hhead : (Text.spaced ((c :: r) :: tokens)).head? = some c := by
      cases tokens with
      | nil => rw [Text.spaced_singleton, List.head?_cons]
      | cons next tokens => rw [Text.spaced_cons_cons, List.cons_append, List.head?_cons]
    rw [hhead]
    simpa using hc

/-- What is written for a script is never what is written for a report. -/
theorem encoding_ne_manifest {path source : Text} {tree : Node} (h : parse path source = .ok tree)
    (config : EncodingConfig) (report : BuildReport) : tree.encoding config ≠ report.manifest := by
  obtain ⟨rest, hmanifest⟩ := report.manifest_eq
  obtain ⟨nodes, ls, rfl, hspells, -⟩ := renders_of_program (parse_eq_ok_iff_program.mp h)
  rw [hmanifest]
  cases hmode : config.mode with
  | tree =>
    rw [Node.encoding_tree hmode, Node.treePieces, List.flatten_cons]
    exact fun heq => absurd (List.cons.inj heq).1 (by decide)
  | flat =>
    cases hsub : config.subtokenize with
    | true =>
      intro heq
      have hnot := newline_not_mem_encoding hmode hsub (.composite .program nodes)
      rw [heq] at hnot
      exact hnot (List.mem_cons_of_mem _ List.mem_cons_self)
    | false =>
      rw [Node.encoding_flat hmode]
      have hbegin : ∀ token ∈ (Node.composite .program nodes).tokenList config,
          StartsUnbraced token := by
        intro token htoken
        obtain ⟨l, hone, htext⟩ := hspells.lexeme_of_token hsub token htoken
        rw [← htext]
        exact hone.startsUnbraced
      exact fun heq => head?_spaced hbegin (congrArg List.head? heq)

end TokenCorpus
