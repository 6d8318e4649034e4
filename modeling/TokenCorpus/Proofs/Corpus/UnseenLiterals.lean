import TokenCorpus.Proofs.Script.Acceptance
import TokenCorpus.Proofs.Corpus.Mirroring

/-!
Literals that are left out cannot be seen in a corpus.

Where two file systems have the same shape and their scripts have trees that differ only in the values
of literals, builds without literals make the same documents and counts without literals are the same.
-/

namespace TokenCorpus

open FileSystem (GrownAlike)

namespace Miner

variable {miner : Miner} {fs other : FileSystem} {input output : Text}

theorem prepareOutput_alike (h : fs.SameShape other) (output : Text) :
    (prepareOutput fs output).1.SameShape (prepareOutput other output).1 ∧
      (prepareOutput other output).2 = (prepareOutput fs output).2 := by
  rw [prepareOutput, prepareOutput, h.leadsSomewhere_eq, h.isDirectory_eq]
  split
  · exact ⟨h, rfl⟩
  · obtain ⟨hshape, hrefusal⟩ := h.createDirectories_alike output
    exact ⟨hshape, by simp only [hrefusal]⟩

/-- What a build makes is the same in both: the directories that it prepares, and the files. -/
theorem new_eq_of_prepared {prepared prepared' after after' : FileSystem}
    (hprepared : FileSystem.GrowsBy FileSystem.IsDirectory fs prepared)
    (h : GrownAlike prepared prepared' after after') (location : Location)
    (hfree : fs.get? location = none) : after'.get? location = after.get? location := by
  cases hthere : prepared.get? location with
  | none => exact h.new_eq location hthere
  | some node =>
    obtain hold | ⟨-, rfl⟩ := hprepared.get?_cases hthere
    · rw [hfree] at hold
      cases hold
    · have hthere' := h.shape_before.get?_of_not_file hthere (by simp)
      rw [h.grown.get?_of_some hthere, h.grown'.get?_of_some hthere']

/-- Two builds end alike: with the same report or the same error, they have made the same directories
and files, and the same can be read in each document. -/
structure BuildsAlike (fs : FileSystem) (after after' : Outcome BuildReport) : Prop where
  result_eq : after'.result = after.result
  new_eq : ∀ location, fs.get? location = none → after'.fs.get? location = after.fs.get? location
  documents : ∀ report, after.result = .ok report → ∀ path ∈ report.documents, ∃ content,
    after.fs.read path = .ok content ∧ after'.fs.read path = .ok content

theorem mirrors_start (h : fs.SameShape other) (encoding : EncodingConfig)
    (log : List Event) :
    (Run.start fs encoding log).Mirrors (Run.start other encoding log) := by
  refine ⟨GrownAlike.refl h, rfl, rfl, fun path hmem => ?_⟩
  cases hmem

theorem build_alike (hleft : miner.options.encoding.includeLiterals = false)
    (h : fs.SameShape other)
    (hscripts : miner.ScriptsAlike input (prepareOutput fs output).1 (prepareOutput other output).1) :
    BuildsAlike fs (miner.build fs input output) (miner.build other input output) := by
  have hgrows := prepareOutput_grows fs output
  obtain ⟨hshape, hrefusal⟩ := prepareOutput_alike h output
  rw [build, build]
  generalize hprepare : prepareOutput fs output = result at *
  generalize hprepare' : prepareOutput other output = result' at *
  obtain ⟨prepared, refusal⟩ := result
  obtain ⟨prepared', refusal'⟩ := result'
  simp only at hgrows hshape hrefusal hscripts
  subst hrefusal
  cases refusal' with
  | some e =>
    refine ⟨rfl, new_eq_of_prepared hgrows (GrownAlike.refl hshape), ?_⟩
    intro report hreport
    cases hreport
  | none =>
    obtain ⟨out, hout⟩ := prepareOutput_ready hprepare
    obtain ⟨out', hout'⟩ := prepareOutput_ready hprepare'
    have hmatched : Run.Matched miner (.dump output) input prepared prepared' :=
      ⟨hleft, hscripts, ⟨out, hout, trivial⟩, ⟨out', hout', trivial⟩⟩
    have hsteps := (mirrors_start hshape miner.options.encoding
      [.buildStarted input output miner.options.encoding]).all hmatched
    simp only
    generalize (Run.start prepared _ _).all miner (.dump output) input = step at hsteps ⊢
    generalize (Run.start prepared' _ _).all miner (.dump output) input = step' at hsteps ⊢
    cases hsteps with
    | error hruns herror =>
      refine ⟨congrArg Except.error herror, new_eq_of_prepared hgrows hruns.fs_alike, ?_⟩
      intro report hreport
      cases hreport
    | ok hruns =>
      refine ⟨congrArg Except.ok hruns.report_eq, new_eq_of_prepared hgrows hruns.fs_alike, ?_⟩
      intro report hreport
      cases hreport
      exact hruns.documents

theorem countTokens_alike (hleft : miner.options.encoding.includeLiterals = false)
    (h : fs.SameShape other) (hscripts : miner.ScriptsAlike input fs other) :
    (miner.countTokens other input).result = (miner.countTokens fs input).result := by
  have hmatched : Run.Matched miner .tally input fs other := ⟨hleft, hscripts, trivial, trivial⟩
  have hsteps := (mirrors_start h miner.options.encoding [.countStarted input]).all hmatched
  rw [countTokens, countTokens]
  generalize (Run.start fs _ _).all miner .tally input = step at hsteps ⊢
  generalize (Run.start other _ _).all miner .tally input = step' at hsteps ⊢
  cases hsteps with
  | error hruns herror => exact congrArg Except.error herror
  | ok hruns => simp only [hruns.counts_eq, hruns.report_eq]

/-- Scripts stay alike when a file is given contents with the same tree but for literals. -/
theorem scriptsAlike_refill (input : Text) {changed : Location} {content : Bytes}
    (h : ∀ path old, fs.get? changed = some (.file old) →
      Option.Rel Node.SameButLiterals (miner.tree? path old) (miner.tree? path content)) :
    miner.ScriptsAlike input fs (fs.refill changed content) := by
  intro above name old new _ hread hread'
  generalize Path.below input (above ++ [name]) = path at hread hread' ⊢
  obtain ⟨location, hland⟩ := FileSystem.read_eq_ok_iff.mp hread
  obtain ⟨location', hland'⟩ := FileSystem.read_eq_ok_iff.mp hread'
  have hthere := FileSystem.get?_of_land hland
  have hthere' := FileSystem.get?_of_land hland'
  have hplace : location' = location := by
    have halike := (fs.sameShape_refill changed content).land_alike .target path
    rw [hland, hland'] at halike
    cases halike <;> rfl
  rw [hplace, FileSystem.get?_refill, hthere] at hthere'
  split at hthere'
  · next hchanged =>
    cases hthere'
    exact h path old (hchanged ▸ hthere)
  · cases hthere'
    cases miner.tree? path old with
    | none => exact .none
    | some tree => exact .some rfl

theorem tree?_ofScripts (options : BuildOptions) (path : Text) (content : Bytes) :
    (ofScripts options).tree? path content =
      (Utf8.decode? content).bind fun source => (Script.program source).toOption := by
  rw [tree?, Utf8.read]
  cases Utf8.decode? content with
  | none => rfl
  | some source =>
    change (Script.parse path source).toOption = (Script.program source).toOption
    rw [Script.parse]
    cases Script.program source <;> rfl

/-- Literals that are left out cannot be told from what is written or counted. Trees that differ only
in the values of literals are written and visited alike, with any writer. So are scripts with such
trees: counting them gives the same counts and the same report, and a build of them gives the same
report, or the same error, and the same documents. A build reads scripts once it has prepared its
directory for documents. -/
theorem suppressed_literals_unseen (hleft : miner.options.encoding.includeLiterals = false) :
    (∀ a b : Node, a.SameButLiterals b →
      ∀ {m : Type → Type} [Monad m] (action : Text → m Unit),
        encode miner.options.encoding action a = encode miner.options.encoding action b ∧
        a.forTokens miner.options.encoding action = b.forTokens miner.options.encoding action) ∧
    ∀ fs other : FileSystem, fs.SameShape other → ∀ input,
      (miner.ScriptsAlike input fs other →
        (miner.countTokens other input).result = (miner.countTokens fs input).result) ∧
      ∀ output,
        miner.ScriptsAlike input (prepareOutput fs output).1 (prepareOutput other output).1 →
          BuildsAlike fs (miner.build fs input output) (miner.build other input output) := by
  refine ⟨fun a b hsame m _ action => ?_, fun fs other hshape input => ⟨fun hscripts => ?_, ?_⟩⟩
  · exact ⟨hsame.encode_eq hleft action, hsame.forTokens_eq hleft action⟩
  · exact countTokens_alike hleft hshape hscripts
  · exact fun output hscripts => build_alike hleft hshape hscripts

/-- The small project with another number in its script. -/
def renumberedProject : FileSystem :=
  smallProject.refill (firstScript :: projectDir) (Text.bytes "(x 22)".toList)

/-- The number in the script of the small project can be changed unseen. -/
theorem suppressed_literals_unseen_smallProject :
    (ofScripts (.ofEncoding (.flat false))).ScriptsAlike "in".toList smallProject renumberedProject ∧
      smallProject.read "in/p/a.sutra".toList ≠ renumberedProject.read "in/p/a.sutra".toList ∧
      ((ofScripts (.ofEncoding (.flat false))).countTokens renumberedProject "in".toList).result =
        ((ofScripts (.ofEncoding (.flat false))).countTokens smallProject "in".toList).result ∧
      BuildsAlike smallProject
        ((ofScripts (.ofEncoding (.flat false))).build smallProject "in".toList "out".toList)
        ((ofScripts (.ofEncoding (.flat false))).build renumberedProject "in".toList
          "out".toList) := by
  have hscripts : (ofScripts (.ofEncoding (.flat false))).ScriptsAlike "in".toList smallProject
      renumberedProject := by
    refine scriptsAlike_refill _ fun path old hold => ?_
    have hthere : smallProject.get? (firstScript :: projectDir) =
        some (.file (Text.bytes "(x 1)".toList)) := by
      decide +kernel
    rw [hthere, Option.some.injEq, FileNode.file.injEq] at hold
    rw [← hold, tree?_ofScripts, tree?_ofScripts]
    have htree : ((Utf8.decode? (Text.bytes "(x 1)".toList)).bind fun source =>
        (Script.program source).toOption) =
        some (.composite .program [.composite .list [.identifier ['x'], .literal ['1']]]) := by
      decide +kernel
    have htree' : ((Utf8.decode? (Text.bytes "(x 22)".toList)).bind fun source =>
        (Script.program source).toOption) =
        some (.composite .program [.composite .list [.identifier ['x'], .literal ['2', '2']]]) := by
      decide +kernel
    rw [htree, htree']
    exact .some (by decide)
  have hleft : (ofScripts (.ofEncoding (.flat false))).options.encoding.includeLiterals = false := rfl
  have hshape : smallProject.SameShape renumberedProject := smallProject.sameShape_refill _ _
  have hprepare : prepareOutput smallProject "out".toList = (smallProject, none) :=
    prepareOutput_of_isDirectory (by decide +kernel)
  have hprepare' : prepareOutput renumberedProject "out".toList = (renumberedProject, none) :=
    prepareOutput_of_isDirectory (by decide +kernel)
  obtain ⟨-, hprojects⟩ := suppressed_literals_unseen hleft
  obtain ⟨hcounts, hbuilds⟩ := hprojects smallProject renumberedProject hshape "in".toList
  refine ⟨hscripts, by decide +kernel, hcounts hscripts, hbuilds "out".toList ?_⟩
  rw [hprepare, hprepare']
  exact hscripts

end Miner

end TokenCorpus
