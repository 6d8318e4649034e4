import TokenCorpus.Proofs.Corpus.Agenda
import TokenCorpus.Proofs.Corpus.Documents
import TokenCorpus.Proofs.Corpus.Log

/-!
How a build ends.

A build prepares the directory for documents, lists the input directory and then comes through its
agenda, or through a part of it. Main statement: a build that fails at an entry has done all that the
entries before it ask for and nothing else.
-/

namespace TokenCorpus

open FileSystem (GrowsBy FileIn)

namespace Miner

variable {miner : Miner} {fs prepared : FileSystem} {input output : Text}

/-- What ends a dump at a stop that takes the given number, be it an error or a panic. -/
inductive Raises (miner : Miner) (fs : FileSystem) (output : Text) (out : Location) (stop : Stop)
    (sequence : Nat) : Abort BuildError → Prop where
  /-- The entry cannot be visited. -/
  | lost {path : Text} {depth : Nat} {cause : FileError} (hstop : stop = .lost path depth cause) :
      Raises miner fs output out stop sequence (.raised (.walk path depth cause))
  /-- A link in the input directory leads nowhere. -/
  | dangling {path : Text} {name : Name} {cause : FileError} (hstop : stop = .link path name)
      (hfind : fs.find path = .error cause) :
      Raises miner fs output out stop sequence (.raised (.walk path 0 cause))
  | unreadable {name : Name} {cause : FileError} (hname : stop.name? = some name)
      (haccepts : miner.options.accepts name.text) (hread : fs.read stop.path = .error cause) :
      Raises miner fs output out stop sequence (.raised (.io .read stop.path cause))
  /-- The number has no document name. -/
  | unnamed {tree : Node} {cause : Abort BuildError} (haccepts : miner.Accepts fs stop tree)
      (hname : documentName sequence miner.options.sequenceWidth = .error cause) :
      Raises miner fs output out stop sequence cause
  | collision {tree : Node} {name : Name} {node : FileNode} (haccepts : miner.Accepts fs stop tree)
      (hname : documentName sequence miner.options.sequenceWidth = .ok name.text)
      (hthere : fs.get? (name :: out) = some node) :
      Raises miner fs output out stop sequence
        (.raised (.outputCollision sequence (Path.join output name.text)))
  | tooLong {tree : Node} {name : Text} (haccepts : miner.Accepts fs stop tree)
      (hname : documentName sequence miner.options.sequenceWidth = .ok name)
      (hlong : Path.isTooLong (Path.join output name) ∨ 255 < name.byteLength) :
      Raises miner fs output out stop sequence
        (.raised (.io .create (Path.join output name) .nameTooLong))

theorem Raises.ne_invalidOutputDir {out : Location} {stop : Stop} {sequence : Nat}
    {cause : Abort BuildError} (h : miner.Raises fs output out stop sequence cause) (path : Text) :
    cause ≠ .raised (.invalidOutputDir path) := by
  cases h with
  | unnamed haccepts hname =>
    rintro rfl
    obtain ⟨-, heq⟩ | ⟨-, -, heq⟩ | ⟨-, -, heq⟩ :=
      documentName_cases sequence miner.options.sequenceWidth
    all_goals simp [hname] at heq
  | _ => simp

theorem judgeFile_eq_error {path : Text} {name : Name} {e : BuildError}
    (h : miner.judgeFile fs path name = .error e) :
    miner.options.accepts name.text ∧ ∃ cause, fs.read path = .error cause ∧
      e = .io .read path cause := by
  rw [judgeFile] at h
  split at h
  · simp at h
  · next haccepts =>
    refine ⟨by simpa using haccepts, ?_⟩
    cases hread : fs.read path with
    | error cause =>
      simp only [hread, Except.error.injEq] at h
      exact ⟨cause, rfl, h.symm⟩
    | ok bytes =>
      simp only [hread] at h
      split at h <;> simp at h

theorem raises_of_judge {out : Location} {stop : Stop} {sequence : Nat} {e : BuildError}
    (h : miner.judge fs stop = .error e) :
    miner.Raises fs output out stop sequence (.raised e) := by
  cases stop with
  | directory => simp [judge] at h
  | lost path depth cause =>
    cases h
    exact .lost rfl
  | file path name =>
    obtain ⟨haccepts, cause, hread, rfl⟩ := judgeFile_eq_error h
    exact .unreadable rfl haccepts hread
  | link path name =>
    have hfind := fs.find_eq path
    simp only [judge] at h
    split at h
    · next cause hland =>
      cases h
      rw [hland] at hfind
      exact .dangling rfl hfind
    · next hland =>
      cases h
      rw [hland] at hfind
      exact .dangling rfl hfind
    · obtain ⟨haccepts, cause, hread, rfl⟩ := judgeFile_eq_error h
      exact .unreadable rfl haccepts hread

end Miner

namespace Run

variable {base : FileSystem} {miner : Miner} {job : Job}

theorem take_eq_error {run : Run base} {stop : Stop} {failure : Failure base}
    (h : run.take miner job stop = .error failure) :
    failure.run = run.visit ∧
      ((∃ e, miner.judge run.fs stop = .error e ∧ failure.cause = .raised e) ∨
        ∃ verdict, miner.judge run.fs stop = .ok verdict ∧
          run.visit.settle miner.options job stop.path verdict = .error failure) := by
  rw [take] at h
  cases hjudge : miner.judge run.fs stop with
  | error e =>
    simp only [hjudge, fail, Except.error.injEq] at h
    rw [← h]
    exact ⟨rfl, Or.inl ⟨e, rfl, rfl⟩⟩
  | ok verdict =>
    simp only [hjudge] at h
    exact ⟨settle_failure h, Or.inr ⟨verdict, rfl, h⟩⟩

/-- A run panics only over the name of a document, which it makes for a script. -/
theorem take_eq_panic {run last : Run base} {stop : Stop}
    (h : run.take miner job stop = .error ⟨.panic, last⟩) :
    ∃ output tree, job = .dump output ∧ miner.Accepts run.fs stop tree ∧
      documentName (run.sequence + 1) miner.options.sequenceWidth = .error .panic := by
  obtain ⟨-, ⟨e, -, hraised⟩ | ⟨verdict, hjudge, hsettle⟩⟩ := take_eq_error h
  · cases hraised
  · obtain ⟨output, tree, hjob, rfl, hwrite⟩ := writeDocument_of_settle_error hsettle
    obtain ⟨-, hunnamed | ⟨_, _, -, -, hraised⟩⟩ := writeDocument_eq_error hwrite
    · exact ⟨output, tree, hjob, Miner.judge_eq_accepted.mp hjudge, hunnamed⟩
    · cases hraised

theorem all_eq_panic {run last : Run base} {input : Text}
    (h : run.all miner job input = .error ⟨.panic, last⟩) :
    ∃ output, job = .dump output ∧ maxSequenceWidth < miner.options.sequenceWidth := by
  cases hroot : run.fs.findDirectory input with
  | error e =>
    rw [all, hroot] at h
    cases h
  | ok root =>
    have hends : Ends miner job run _ (run.all miner job input) :=
      ends_all (FileSystem.agenda_of_findDirectory hroot)
    rw [h] at hends
    cases hends with
    | fails hpasses htake =>
      obtain ⟨output, _, hjob, -, hname⟩ := take_eq_panic htake
      exact ⟨output, hjob, (documentName_eq_panic_iff.mp hname).2⟩

/-- A dump can settle every verdict but that of a script, and there it fails over the document: it has
no name, its place is taken, or its path or its name is too long. -/
theorem settle_eq_error {output path : Text} {out : Location} {run : Run base}
    {options : BuildOptions} {verdict : Verdict} {failure : Failure base}
    (hout : run.fs.documentDirectory output = .ok out)
    (h : run.settle options (.dump output) path verdict = .error failure) :
    ∃ tree, verdict = .accepted tree ∧
      (documentName run.sequence options.sequenceWidth = .error failure.cause ∨
        (∃ name node, documentName run.sequence options.sequenceWidth = .ok (Name.text name) ∧
          run.fs.get? (name :: out) = some node ∧
          failure.cause =
            .raised (.outputCollision run.sequence (Path.join output (Name.text name)))) ∨
        ∃ name, documentName run.sequence options.sequenceWidth = .ok name ∧
          (Path.isTooLong (Path.join output name) ∨ 255 < name.byteLength) ∧
          failure.cause = .raised (.io .create (Path.join output name) .nameTooLong)) := by
  obtain ⟨_, tree, hjob, rfl, hwrite⟩ := writeDocument_of_settle_error h
  cases hjob
  refine ⟨tree, rfl, ?_⟩
  obtain ⟨-, hunnamed | ⟨name, e, hname, hcreate, hcause⟩⟩ := writeDocument_eq_error hwrite
  · exact Or.inl hunnamed
  · obtain ⟨rfl, valid, node, hthere⟩ | ⟨rfl, hlong⟩ := createFile_document_error hout hname hcreate
    · exact Or.inr (Or.inl ⟨⟨name, valid⟩, node, hname, hthere, hcause⟩)
    · exact Or.inr (Or.inr ⟨name, hname, hlong, hcause⟩)

/-- A dump that ends at a stop has changed nothing there, and it ends as that stop makes it. -/
theorem take_raises {output : Text} {out : Location} {run : Run base} {stop : Stop}
    {failure : Failure base} (hout : run.fs.documentDirectory output = .ok out)
    (h : run.take miner (.dump output) stop = .error failure) :
    miner.Raises run.fs output out stop (run.sequence + 1) failure.cause := by
  obtain ⟨-, ⟨e, hjudge, hcause⟩ | ⟨verdict, hjudge, hsettle⟩⟩ := take_eq_error h
  · rw [hcause]
    exact Miner.raises_of_judge hjudge
  · have hvisit : run.visit.fs.documentDirectory output = .ok out := hout
    obtain ⟨tree, rfl, hunnamed | ⟨name, node, hname, hthere, hcause⟩ |
      ⟨name, hname, hlong, hcause⟩⟩ := settle_eq_error hvisit hsettle
    · exact .unnamed (Miner.judge_eq_accepted.mp hjudge) hunnamed
    · rw [hcause]
      exact .collision (Miner.judge_eq_accepted.mp hjudge) hname hthere
    · rw [hcause]
      exact .tooLong (Miner.judge_eq_accepted.mp hjudge) hname hlong

end Run

namespace Miner

variable {miner : Miner} {fs prepared : FileSystem} {input output : Text}

/-- A build before its first entry. -/
def opening (miner : Miner) (prepared : FileSystem) (input output : Text) : Run prepared :=
  Run.start prepared miner.options.encoding [.buildStarted input output miner.options.encoding]

/-- A build that panics asks for names that are too wide. -/
theorem maxSequenceWidth_lt_of_panic (h : (miner.build fs input output).result = .error .panic) :
    maxSequenceWidth < miner.options.sequenceWidth := by
  rw [build] at h
  split at h
  · cases h
  · simp only at h
    split at h
    · next failure hall =>
      obtain ⟨cause, last⟩ := failure
      cases h
      obtain ⟨_, -, hwide⟩ := Run.all_eq_panic hall
      exact hwide
    · cases h

theorem countTokens_ne_panic (miner : Miner) (fs : FileSystem) (input : Text) :
    (miner.countTokens fs input).result ≠ .error .panic := by
  intro h
  rw [countTokens] at h
  split at h
  · next failure hall =>
    obtain ⟨cause, last⟩ := failure
    cases h
    obtain ⟨_, htally, -⟩ := Run.all_eq_panic hall
    cases htally
  · cases h

theorem sequence_opening : (miner.opening prepared input output).sequence = 0 := rfl

theorem build_of_unprepared {e : BuildError} (h : prepareOutput fs output = (prepared, some e)) :
    miner.build fs input output = ⟨prepared, [], .error (.raised e)⟩ := by
  rw [build, h]

theorem build_of_unlisted {e : FileError} (h : prepareOutput fs output = (prepared, none))
    (hlist : prepared.findDirectory input = .error e) :
    miner.build fs input output =
      ⟨prepared, (miner.opening prepared input output).log,
        .error (.raised (.io .readDirectory input e))⟩ := by
  rw [build, h]
  simp only [Run.all, Run.start, hlist]
  rfl

/-- A build with an agenda comes through it, or fails at one of its entries. -/
theorem build_of_agenda {agenda : List Pending} (h : prepareOutput fs output = (prepared, none))
    (hagenda : prepared.agenda input = .ok agenda) :
    (∃ stops last,
      Run.Passes miner (.dump output) (miner.opening prepared input output) agenda stops last [] ∧
      miner.build fs input output =
        ⟨last.fs, last.log ++ [.buildComplete last.report], .ok last.report⟩) ∨
    ∃ stops last pending rest failure,
      Run.Passes miner (.dump output) (miner.opening prepared input output) agenda stops last
        (pending :: rest) ∧
      last.take miner (.dump output) (pending.stop last.fs) = .error failure ∧
      miner.build fs input output = ⟨last.fs, last.log, .error failure.cause⟩ := by
  have hends : Run.Ends miner (.dump output) (miner.opening prepared input output) agenda
      ((miner.opening prepared input output).all miner (.dump output) input) :=
    Run.ends_all hagenda
  rw [build, h]
  change Run.Ends miner (.dump output) _ agenda ((Run.start prepared miner.options.encoding
    [.buildStarted input output miner.options.encoding]).all miner (.dump output) input) at hends
  simp only
  generalize Run.all _ miner (.dump output) input = result at hends ⊢
  cases hends with
  | through hpasses => exact Or.inl ⟨_, _, hpasses, rfl⟩
  | @fails last stops pending rest failure hpasses htake =>
    refine Or.inr ⟨_, last, pending, rest, failure, hpasses, htake, ?_⟩
    simp only [(Run.take_eq_error htake).1]
    rfl

/-- What a build has told of the entries that it has come through. -/
theorem log_of_passes {out : Location} {agenda rest : List Pending} {stops : List Stop}
    {last : Run prepared} (hout : prepared.documentDirectory output = .ok out)
    (hpasses : Run.Passes miner (.dump output) (miner.opening prepared input output) agenda stops last
      rest) :
    ∃ events, last.log = .buildStarted input output miner.options.encoding :: events ∧
      List.Forall₂ (miner.Tells (.dump output) last.fs) (stops.zipIdx 1) events := by
  have hjob := Job.writesIn_dump hout
  have hstart : (miner.opening prepared input output).Grown (· = out) := GrowsBy.refl prepared
  exact Run.log_foldlM_take hjob hstart hpasses.foldlM_take

theorem prepareOutput_eq_error {e : BuildError}
    (h : prepareOutput fs output = (prepared, some e)) :
    (e = .invalidOutputDir output ∧ prepared = fs) ∨ ∃ cause, e = .io .create output cause := by
  rw [prepareOutput] at h
  split at h
  · simp only [Prod.mk.injEq, Option.ite_none_left_eq_some, Option.some.injEq] at h
    exact Or.inl ⟨h.2.2.symm, h.1.symm⟩
  · simp only [Prod.mk.injEq, Option.map_eq_some_iff] at h
    obtain ⟨-, cause, -, he⟩ := h
    exact Or.inr ⟨cause, he.symm⟩

/-- The files that are new after some stops are the documents of those stops. -/
theorem newFiles_iff {out : Location} {stops : List Stop} {last : Run prepared}
    (hprepared : GrowsBy FileSystem.IsDirectory fs prepared)
    (hout : prepared.documentDirectory output = .ok out)
    (hfold : stops.foldlM (Run.take miner (.dump output)) (miner.opening prepared input output) =
      .ok last) (location : Location) (content : Bytes) :
    fs.get? location = none ∧ last.fs.get? location = some (.file content) ↔
      miner.IsDocument out last.fs (stops.zipIdx 1) location (.file content) := by
  have hstart : (miner.opening prepared input output).Grown (· = out) := GrowsBy.refl prepared
  obtain ⟨hgrows, hdocuments⟩ := Run.documents_foldlM_take hout hstart hfold
  constructor
  · rintro ⟨hfree, hthere⟩
    obtain hold | ⟨-, hnew⟩ := hgrows.get?_cases hthere
    · obtain hold' | ⟨-, hdirectory⟩ := hprepared.get?_cases hold
      · rw [hfree] at hold'
        simp at hold'
      · simp [FileSystem.IsDirectory] at hdirectory
    · exact hnew
  · intro hdocument
    obtain ⟨hfree, hthere⟩ := hdocuments location _ hdocument
    exact ⟨hprepared.get?_of_none hfree, hthere⟩

/-- The places for later documents are as they were before the build. -/
theorem get?_later {out : Location} {stops : List Stop} {last : Run prepared}
    (hout : prepared.documentDirectory output = .ok out)
    (hfold : stops.foldlM (Run.take miner (.dump output)) (miner.opening prepared input output) =
      .ok last) {sequence : Nat} (hlater : stops.length < sequence) {name : Name}
    (hname : documentName sequence miner.options.sequenceWidth = .ok name.text) :
    last.fs.get? (name :: out) = prepared.get? (name :: out) := by
  have hstart : (miner.opening prepared input output).Grown (· = out) := GrowsBy.refl prepared
  refine (Run.documents_foldlM_take hout hstart hfold).1.get?_eq ?_
  rintro node ⟨stop, hmem, tree, name', -, hname', heq, -⟩
  cases heq
  have hsequence := documentName_injective hname hname'
  have hlt := List.snd_lt_of_mem_zipIdx hmem
  rw [sequence_opening] at hlt
  omega

/-- What a build has done when it is ended at the stop that comes after `stops`. -/
structure StopsAt (miner : Miner) (fs prepared : FileSystem) (output : Text) (out : Location)
    (stops : List Stop) (stop : Stop) (cause : Abort BuildError) (after : Outcome BuildReport) :
    Prop where
  visited_eq : after.visited = (stops.zipIdx 1).map fun stop => (stop.2, stop.1.path)
  raised : miner.Raises after.fs output out stop (stops.length + 1) cause
  newFiles : ∀ location content,
    fs.get? location = none ∧ after.fs.get? location = some (.file content) ↔
      ∃ stop ∈ stops.zipIdx 1, ∃ tree name, miner.Accepts after.fs stop.1 tree ∧
        documentName stop.2 miner.options.sequenceWidth = .ok (Name.text name) ∧
        location = name :: out ∧ content = (tree.encoding miner.options.encoding).bytes
  later_free : ∀ sequence > stops.length, ∀ name,
    documentName sequence miner.options.sequenceWidth = .ok (Name.text name) →
      after.fs.get? (name :: out) = prepared.get? (name :: out)

theorem stopsAt_of_passes {out : Location} {agenda rest : List Pending} {pending : Pending}
    {stops : List Stop} {last : Run prepared} {failure : Failure prepared}
    (hprepare : prepareOutput fs output = (prepared, none))
    (hout : prepared.documentDirectory output = .ok out)
    (hpasses : Run.Passes miner (.dump output) (miner.opening prepared input output) agenda stops last
      (pending :: rest))
    (htake : last.take miner (.dump output) (pending.stop last.fs) = .error failure) :
    miner.StopsAt fs prepared output out stops (pending.stop last.fs) failure.cause
      ⟨last.fs, last.log, .error failure.cause⟩ := by
  have hprepared : GrowsBy FileSystem.IsDirectory fs prepared := by
    simpa only [hprepare] using prepareOutput_grows fs output
  have hjob := Job.writesIn_dump hout
  have hstart : (miner.opening prepared input output).Grown (· = out) := GrowsBy.refl prepared
  have hfold := hpasses.foldlM_take
  have hgrown := Run.grown_foldlM_take hjob hstart hfold
  refine ⟨?_, ?_, ?_, ?_⟩
  · obtain ⟨events, hlog, htells⟩ := log_of_passes hout hpasses
    rw [← visited_of_tells htells, Outcome.visited, hlog]
    rfl
  · have hraised := Run.take_raises ((FileSystem.documentDirectory_grows hgrown).mpr hout) htake
    rw [Run.sequence_foldlM_take hfold] at hraised
    rwa [sequence_opening, Nat.zero_add] at hraised
  · intro location content
    rw [newFiles_iff hprepared hout hfold]
    constructor
    · rintro ⟨stop, hmem, tree, name, hjudge, hname, rfl, hnode⟩
      cases hnode
      exact ⟨stop, hmem, tree, name, judge_eq_accepted.mp hjudge, hname, rfl, rfl⟩
    · rintro ⟨stop, hmem, tree, name, haccepts, hname, rfl, rfl⟩
      exact ⟨stop, hmem, tree, name, judge_eq_accepted.mpr haccepts, hname, rfl, rfl⟩
  · exact fun sequence hlater name hname => get?_later hout hfold hlater hname

/-- A build that fails has failed before its first entry, and then it has made no files; or it fails
at an entry, and then the files it has made are the documents of the entries before, all of them
whole. An output path that is no directory is refused before anything is changed. A build that
panics at an entry leaves the same behind as one that fails there. -/
theorem build_fails {cause : Abort BuildError}
    (h : (miner.build fs input output).result = .error cause) :
    (∀ path, cause = .raised (.invalidOutputDir path) → (miner.build fs input output).fs = fs) ∧
    (∀ e, (prepareOutput fs output).1.findDirectory input = .error e →
      GrowsBy FileSystem.IsDirectory fs (miner.build fs input output).fs) ∧
    ((∃ e, (prepareOutput fs output).2 = some e ∧ cause = .raised e ∧
        GrowsBy FileSystem.IsDirectory fs (miner.build fs input output).fs) ∨
      (∃ e, (prepareOutput fs output).1.findDirectory input = .error e ∧
        cause = .raised (.io .readDirectory input e)) ∨
      ∃ prepared out agenda stops pending rest, ∃ last : Run prepared,
        prepareOutput fs output = (prepared, none) ∧
        prepared.documentDirectory output = .ok out ∧ prepared.agenda input = .ok agenda ∧
        Run.Passes miner (.dump output) (miner.opening prepared input output) agenda stops last
          (pending :: rest) ∧
        (miner.build fs input output).fs = last.fs ∧
        miner.StopsAt fs prepared output out stops (pending.stop last.fs) cause
          (miner.build fs input output)) := by
  have hgrows := prepareOutput_grows fs output
  generalize hprepare : prepareOutput fs output = result at hgrows ⊢
  obtain ⟨prepared, failure⟩ := result
  cases failure with
  | some e' =>
    rw [build_of_unprepared hprepare] at h ⊢
    cases h
    refine ⟨?_, fun _ _ => hgrows, Or.inl ⟨e', rfl, rfl, hgrows⟩⟩
    intro path hcause
    cases hcause
    obtain ⟨-, hsame⟩ | ⟨cause, he⟩ := prepareOutput_eq_error hprepare
    · exact hsame
    · simp at he
  | none =>
    cases hlist : prepared.findDirectory input with
    | error e =>
      rw [build_of_unlisted hprepare hlist] at h ⊢
      cases h
      exact ⟨by simp, fun _ _ => hgrows, Or.inr (Or.inl ⟨e, rfl, rfl⟩)⟩
    | ok root =>
      obtain ⟨out, hout⟩ := prepareOutput_ready hprepare
      have hagenda := FileSystem.agenda_of_findDirectory hlist
      obtain ⟨stops, last, -, hbuild⟩ | ⟨stops, last, pending, rest, failure, hpasses, htake, hbuild⟩ :=
        build_of_agenda hprepare hagenda
      · rw [hbuild] at h
        simp at h
      · rw [hbuild] at h ⊢
        cases h
        have hstops := stopsAt_of_passes hprepare hout hpasses htake
        refine ⟨fun path he => absurd he (hstops.raised.ne_invalidOutputDir path), by simp, ?_⟩
        exact Or.inr (Or.inr ⟨prepared, out, _, stops, pending, rest, last, rfl, hout, hagenda,
          hpasses, rfl, hstops⟩)

def secondScript : Name := ⟨"b.sutra".toList, by decide⟩

/-- A project with two scripts, where something is in the place for the second document. -/
def crowdedProject : FileSystem :=
  (projectOf [(firstScript, .file (Text.bytes "(x)".toList)),
      (secondScript, .file (Text.bytes "(y)".toList))] (by decide)).insert outputDir
    ⟨"00000003.txt".toList, by decide⟩ (by decide) (by decide) .directory

theorem build_fails_crowdedProject :
    ((ofScripts {}).build crowdedProject "in".toList "out".toList).result =
        .error (.raised (.outputCollision 3 "out/00000003.txt".toList)) ∧
      ∃ prepared out stops stop, (ofScripts {}).StopsAt crowdedProject prepared "out".toList out stops
        stop (.raised (.outputCollision 3 "out/00000003.txt".toList))
        ((ofScripts {}).build crowdedProject "in".toList "out".toList) := by
  have herror : ((ofScripts {}).build crowdedProject "in".toList "out".toList).result =
      .error (.raised (.outputCollision 3 "out/00000003.txt".toList)) := by decide +kernel
  have hready : (prepareOutput crowdedProject "out".toList).2 = none := by decide +kernel
  refine ⟨herror, ?_⟩
  obtain ⟨-, -, ⟨e, hunprepared, -⟩ | ⟨e, -, hunlisted⟩ |
    ⟨prepared, out, -, stops, pending, -, last, -, -, -, -, -, hstops⟩⟩ := build_fails herror
  · rw [hready] at hunprepared
    simp at hunprepared
  · simp at hunlisted
  · exact ⟨prepared, out, stops, pending.stop last.fs, hstops⟩

end Miner

end TokenCorpus
