import TokenCorpus.Proofs.Corpus.DocumentName
import TokenCorpus.Corpus.Build

/-!
The steps of a run.

A run visits one stop after the other. It first judges the stop, for which it only reads the file
system, and then settles the verdict: it logs, records, writes or counts. The only errors that depend
on what has been written are those of writing itself.
-/

namespace TokenCorpus

open FileSystem (GrowsBy FileIn)

/-- An entry to which the walk comes. -/
inductive Stop where
  /-- A directory, or a link that counts as one. The walk goes on in `entered`. -/
  | directory (path : Text) (entered : Option Location)
  /-- An entry that is neither a directory nor a link in the input directory. -/
  | file (path : Text) (name : Name)
  /-- A link in the input directory that leads to no directory. -/
  | link (path : Text) (name : Name)
  /-- An entry that cannot be visited. -/
  | lost (path : Text) (depth : Nat) (cause : FileError)
  deriving DecidableEq, Repr

namespace Stop

/-- The path under which an entry is visited. -/
def path : Stop → Text
  | directory path _ | file path _ | link path _ | lost path _ _ => path

/-- The directory in which the walk goes on. -/
def entered : Stop → Option Location
  | directory _ entered => entered
  | _ => none

/-- Whether an entry counts as a directory. -/
def isDirectory : Stop → Bool
  | directory .. => true
  | _ => false

/-- The name by which a file is taken for a script or not. -/
def name? : Stop → Option Name
  | file _ name | link _ name => some name
  | directory .. | lost .. => none

end Stop

/-- What a run makes of an entry. -/
inductive Verdict where
  | directory
  | otherExtension
  | unparsable (error : ParseError)
  | accepted (tree : Node)

namespace Miner

/-- What becomes of an entry that is no directory. -/
def judgeFile (miner : Miner) (fs : FileSystem) (path : Text) (name : Name) :
    Except BuildError Verdict :=
  if !miner.options.accepts name.text then .ok .otherExtension
  else
    match fs.read path with
    | .error e => .error (.io .read path e)
    | .ok bytes =>
      match (Utf8.read path bytes).bind (miner.parser path) with
      | .error e => .ok (.unparsable e)
      | .ok tree => .ok (.accepted tree)

/-- What becomes of an entry. -/
def judge (miner : Miner) (fs : FileSystem) : Stop → Except BuildError Verdict
  | .directory .. => .ok .directory
  | .file path name => miner.judgeFile fs path name
  | .link path name =>
    match fs.land .target path with
    | .error e => .error (.walk path 0 e)
    | .ok (.free ..) => .error (.walk path 0 .notFound)
    | .ok (.node ..) => miner.judgeFile fs path name
  | .lost path depth cause => .error (.walk path depth cause)

theorem judgeFile_eq_ok_grows {miner : Miner} {Dir : Location → Prop} {before after : FileSystem}
    (hgrow : GrowsBy (FileIn Dir) before after) {path : Text} {name : Name} {verdict : Verdict}
    (h : miner.judgeFile before path name = .ok verdict) :
    miner.judgeFile after path name = .ok verdict := by
  rw [judgeFile] at h ⊢
  split at h
  · next hother => rw [if_pos hother, h]
  · next haccepts =>
    rw [if_neg haccepts]
    cases hread : before.read path with
    | error e => simp [hread] at h
    | ok bytes =>
      rw [FileSystem.read_grows hgrow hread]
      simpa [hread] using h

/-- A verdict stands when files are added. -/
theorem judge_eq_ok_grows {miner : Miner} {Dir : Location → Prop} {before after : FileSystem}
    (hgrow : GrowsBy (FileIn Dir) before after) {stop : Stop} {verdict : Verdict}
    (h : miner.judge before stop = .ok verdict) : miner.judge after stop = .ok verdict := by
  cases stop with
  | directory => exact h
  | lost => simp [judge] at h
  | file path name => exact judgeFile_eq_ok_grows hgrow h
  | link path name =>
    simp only [judge] at h ⊢
    cases hland : before.land .target path with
    | error e => simp [hland] at h
    | ok landing =>
      cases landing with
      | free => simp [hland] at h
      | node location node =>
        rw [FileSystem.land_node_of_grows hgrow hland]
        rw [hland] at h
        exact judgeFile_eq_ok_grows hgrow h

/-- The verdict depends on no more than where the path of the stop leads. -/
theorem judge_congr {miner : Miner} {fs other : FileSystem} {stop : Stop}
    (h : other.land .target stop.path = fs.land .target stop.path) :
    miner.judge other stop = miner.judge fs stop := by
  have hfile : ∀ name,
      miner.judgeFile other stop.path name = miner.judgeFile fs stop.path name := by
    intro name
    rw [judgeFile, judgeFile, FileSystem.read_eq, FileSystem.read_eq, h]
  cases stop with
  | directory => rfl
  | lost => rfl
  | file path name => exact hfile name
  | link path name =>
    simp only [judge]
    rw [show other.land .target path = fs.land .target path from h]
    cases fs.land .target path with
    | error e => rfl
    | ok landing =>
      cases landing with
      | free => rfl
      | node => exact hfile name

end Miner

namespace Run

variable {base : FileSystem}

/-- Does what a verdict on the entry visited last asks for. -/
def settle (run : Run base) (options : BuildOptions) (job : Job) (path : Text) :
    Verdict → Step base
  | .directory => .ok (run.passDirectory path)
  | .otherExtension =>
    .ok ((run.tell (.otherExtension run.sequence path)).record path .skippedNonMatchingExtension
      none)
  | .unparsable e =>
    .ok ((run.tell (.unparsable run.sequence path e.detail)).record path .skippedUnparsable none)
  | .accepted tree => run.accept job options path tree

/-- Visits a stop. -/
def take (miner : Miner) (job : Job) (run : Run base) (stop : Stop) : Step base :=
  match miner.judge run.fs stop with
  | .error e => run.visit.fail e
  | .ok verdict => run.visit.settle miner.options job stop.path verdict

theorem file_eq (run : Run base) (miner : Miner) (job : Job) (path : Text) (name : Name) :
    run.file miner job path name =
      match miner.judgeFile run.fs path name with
      | .error e => run.fail e
      | .ok verdict => run.settle miner.options job path verdict := by
  rw [file, Miner.judgeFile]
  split
  · rfl
  · cases run.fs.read path with
    | error e => rfl
    | ok bytes =>
      simp only
      cases (Utf8.read path bytes).bind (miner.parser path) <;> rfl

theorem writeDocument_eq_ok {run next : Run base} {options : BuildOptions} {output path : Text}
    {tree : Node} (h : run.writeDocument options output path tree = .ok next) :
    ∃ name, documentName run.sequence options.sequenceWidth = .ok name ∧
      run.fs.createFile (Path.join output name) (tree.encoding options.encoding).bytes =
        .ok next.fs ∧
      next.report =
        run.report.push ⟨run.sequence, path, .written, some (Path.join output name)⟩ ∧
      next.counts = run.counts ∧ next.log = run.log ++ [.accepted run.sequence path .written] := by
  rw [writeDocument] at h
  cases hname : documentName run.sequence options.sequenceWidth with
  | error cause => simp [hname] at h
  | ok name =>
    rw [hname] at h
    simp only at h
    split at h
    · simp [fail] at h
    · simp [fail] at h
    · next fs hcreate =>
      cases h
      exact ⟨name, rfl, hcreate, rfl, rfl, rfl⟩

/-- The error for a document that cannot be made. -/
def createError (sequence : Nat) (document : Text) : FileError → BuildError
  | .alreadyExists => .outputCollision sequence document
  | e => .io .create document e

theorem writeDocument_eq_error {run : Run base} {options : BuildOptions} {output path : Text}
    {tree : Node} {failure : Failure base}
    (h : run.writeDocument options output path tree = .error failure) :
    failure.run = run ∧
      (documentName run.sequence options.sequenceWidth = .error failure.cause ∨
        ∃ name e, documentName run.sequence options.sequenceWidth = .ok name ∧
          run.fs.createFile (Path.join output name) (tree.encoding options.encoding).bytes =
            .error e ∧
          failure.cause = .raised (createError run.sequence (Path.join output name) e)) := by
  rw [writeDocument] at h
  cases hname : documentName run.sequence options.sequenceWidth with
  | error cause =>
    simp only [hname, Except.error.injEq] at h
    rw [← h]
    exact ⟨rfl, Or.inl rfl⟩
  | ok name =>
    rw [hname] at h
    simp only at h
    split at h
    · next hcreate =>
      simp only [fail, Except.error.injEq] at h
      rw [← h]
      exact ⟨rfl, Or.inr ⟨name, _, rfl, hcreate, rfl⟩⟩
    · next e hne hcreate =>
      simp only [fail, Except.error.injEq] at h
      rw [← h]
      refine ⟨rfl, Or.inr ⟨name, e, rfl, hcreate, ?_⟩⟩
      cases e with
      | alreadyExists => exact absurd rfl hne
      | _ => rfl
    · simp at h

theorem writeDocument_of_unnamed (run : Run base) {options : BuildOptions} (output path : Text)
    (tree : Node) {cause : Abort BuildError}
    (hname : documentName run.sequence options.sequenceWidth = .error cause) :
    run.writeDocument options output path tree = .error ⟨cause, run⟩ := by
  rw [writeDocument, hname]

theorem writeDocument_of_refused (run : Run base) {options : BuildOptions} {output name : Text}
    (path : Text) {tree : Node} {e : FileError}
    (hname : documentName run.sequence options.sequenceWidth = .ok name)
    (hcreate : run.fs.createFile (Path.join output name) (tree.encoding options.encoding).bytes =
      .error e) :
    run.writeDocument options output path tree =
      run.fail (createError run.sequence (Path.join output name) e) := by
  cases h : run.writeDocument options output path tree with
  | ok next =>
    obtain ⟨name', hname', hcreate', -⟩ := writeDocument_eq_ok h
    rw [hname, Except.ok.injEq] at hname'
    rw [← hname', hcreate] at hcreate'
    cases hcreate'
  | error failure =>
    obtain ⟨hrun, hunnamed | ⟨name', e', hname', hcreate', hcause⟩⟩ := writeDocument_eq_error h
    · rw [hname] at hunnamed
      cases hunnamed
    · rw [hname, Except.ok.injEq] at hname'
      rw [← hname', hcreate, Except.error.injEq] at hcreate'
      rw [← hname', ← hcreate'] at hcause
      obtain ⟨cause, last⟩ := failure
      simp only at hrun hcause
      rw [hrun, hcause, fail]

theorem writeDocument_of_createFile (run : Run base) {options : BuildOptions} {output name : Text}
    (path : Text) {tree : Node} {made : FileSystem}
    (hname : documentName run.sequence options.sequenceWidth = .ok name)
    (hcreate : run.fs.createFile (Path.join output name) (tree.encoding options.encoding).bytes =
      .ok made) :
    ∃ next, run.writeDocument options output path tree = .ok next ∧ next.fs = made ∧
      next.report =
        run.report.push ⟨run.sequence, path, .written, some (Path.join output name)⟩ ∧
      next.counts = run.counts := by
  cases h : run.writeDocument options output path tree with
  | error failure =>
    obtain ⟨-, hunnamed | ⟨name', e, hname', hcreate', -⟩⟩ := writeDocument_eq_error h
    · rw [hname] at hunnamed
      simp at hunnamed
    · rw [hname, Except.ok.injEq] at hname'
      rw [← hname', hcreate] at hcreate'
      simp at hcreate'
  | ok next =>
    obtain ⟨name', hname', hcreate', hreport, hcounts, -⟩ := writeDocument_eq_ok h
    rw [hname, Except.ok.injEq] at hname'
    rw [← hname', hcreate, Except.ok.injEq] at hcreate'
    rw [← hname'] at hreport
    exact ⟨next, rfl, hcreate'.symm, hreport, hcounts⟩

end Run

/-- The directories in which a job makes files are among `Dir`. -/
def Job.WritesIn (base : FileSystem) (Dir : Location → Prop) : Job → Prop
  | .dump output => ∃ out, base.documentDirectory output = .ok out ∧ Dir out
  | .tally => True

theorem Job.writesIn_dump {base : FileSystem} {output : Text} {out : Location}
    (h : base.documentDirectory output = .ok out) :
    Job.WritesIn base (· = out) (.dump output) := ⟨out, h, rfl⟩

/-- The path of the document with the given number. -/
def Job.document? (options : BuildOptions) (sequence : Nat) : Job → Option Text
  | .dump output =>
    (documentName sequence options.sequenceWidth).toOption.map (Path.join output)
  | .tally => none

/-- The record of the entry with the given number. A directory has none. -/
def Verdict.record? (job : Job) (options : BuildOptions) (sequence : Nat) (path : Text) :
    Verdict → Option CorpusFile
  | .directory => none
  | .otherExtension => some ⟨sequence, path, .skippedNonMatchingExtension, none⟩
  | .unparsable _ => some ⟨sequence, path, .skippedUnparsable, none⟩
  | .accepted _ => some ⟨sequence, path, job.status, job.document? options sequence⟩

namespace Run

variable {base : FileSystem} {Dir : Location → Prop} {run next : Run base}
  {options : BuildOptions} {job : Job} {path : Text} {verdict : Verdict}

theorem settle_report (h : run.settle options job path verdict = .ok next) :
    next.report =
      (verdict.record? job options run.sequence path).elim run.report run.report.push := by
  cases verdict with
  | directory => cases h; rfl
  | otherExtension => cases h; rfl
  | unparsable => cases h; rfl
  | accepted tree =>
    cases job with
    | tally => cases h; rfl
    | dump output =>
      obtain ⟨name, hname, -, hreport, -⟩ := writeDocument_eq_ok h
      rw [hreport, Verdict.record?, Job.document?, hname]
      rfl

/-- Settling a verdict adds files at most, and only where the job makes them. -/
theorem settle_grows (hjob : job.WritesIn base Dir) (hrun : GrowsBy (FileIn Dir) base run.fs)
    (h : run.settle options job path verdict = .ok next) :
    GrowsBy (FileIn Dir) run.fs next.fs := by
  cases verdict with
  | directory => cases h; exact GrowsBy.refl _
  | otherExtension => cases h; exact GrowsBy.refl _
  | unparsable => cases h; exact GrowsBy.refl _
  | accepted tree =>
    cases job with
    | tally => cases h; exact GrowsBy.refl _
    | dump output =>
      obtain ⟨out, hout, hdir⟩ := hjob
      obtain ⟨name, hname, hcreate, -⟩ := writeDocument_eq_ok h
      have hout' := (FileSystem.documentDirectory_grows hrun).mpr hout
      obtain ⟨valid, isDirectory, isFree, hmade⟩ := createFile_document hout' hname hcreate
      rw [hmade]
      exact GrowsBy.insert run.fs isDirectory isFree ⟨_, out, _, hdir, rfl, rfl⟩

/-- Every verdict can be settled, but for that of a script whose document cannot be written. -/
theorem writeDocument_of_settle_error {failure : Failure base}
    (h : run.settle options job path verdict = .error failure) :
    ∃ output tree, job = .dump output ∧ verdict = .accepted tree ∧
      run.writeDocument options output path tree = .error failure := by
  cases verdict with
  | directory => simp [settle] at h
  | otherExtension => simp [settle] at h
  | unparsable => simp [settle] at h
  | accepted tree =>
    cases job with
    | tally => simp [settle, accept] at h
    | dump output => exact ⟨output, tree, rfl, rfl, h⟩

/-- A verdict that cannot be settled leaves the run as it was. -/
theorem settle_failure {failure : Failure base}
    (h : run.settle options job path verdict = .error failure) : failure.run = run := by
  obtain ⟨_, _, -, -, hwrite⟩ := writeDocument_of_settle_error h
  exact (writeDocument_eq_error hwrite).1

theorem take_eq_ok {miner : Miner} {stop : Stop} (h : run.take miner job stop = .ok next) :
    ∃ verdict, miner.judge run.fs stop = .ok verdict ∧
      run.visit.settle miner.options job stop.path verdict = .ok next := by
  rw [take] at h
  cases hjudge : miner.judge run.fs stop with
  | error e => simp [hjudge, fail] at h
  | ok verdict =>
    rw [hjudge] at h
    exact ⟨verdict, rfl, h⟩

theorem take_grows {miner : Miner} {stop : Stop} (hjob : job.WritesIn base Dir)
    (hrun : GrowsBy (FileIn Dir) base run.fs) (h : run.take miner job stop = .ok next) :
    GrowsBy (FileIn Dir) run.fs next.fs := by
  obtain ⟨verdict, -, hsettle⟩ := take_eq_ok h
  have hvisit : GrowsBy (FileIn Dir) base run.visit.fs := hrun
  have hgrow := settle_grows hjob hvisit hsettle
  exact hgrow

end Run

end TokenCorpus
