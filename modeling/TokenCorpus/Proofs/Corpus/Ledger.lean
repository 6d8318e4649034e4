import Mathlib.Data.List.Forall2
import TokenCorpus.Proofs.Corpus.Itinerary

/-!
What a run leaves behind.

A run that comes through a list of stops has given each of them the next number. What it recorded
and wrote can be told from the file system it ends with, since a verdict never changes once it has
been given.
-/

namespace TokenCorpus

open FileSystem (GrowsBy FileIn)

namespace BuildReport

theorem files_push (report : BuildReport) (file : CorpusFile) :
    (report.push file).files = report.files ++ [file] := by
  rw [push]
  cases file.status <;> rfl

theorem entriesVisited_push (report : BuildReport) (file : CorpusFile) :
    (report.push file).entriesVisited = report.entriesVisited := by
  rw [push]
  cases file.status <;> rfl

theorem documents_push (report : BuildReport) (file : CorpusFile) :
    (report.push file).documents = report.documents ++ file.outputPath.toList := by
  rw [documents, documents, files_push, List.filterMap_append]
  cases h : file.outputPath with
  | none => simp [h]
  | some path => simp [h]

end BuildReport

namespace Miner

/-- A file is the record of the stop with the given number. Where it names a document, the number
has a document name. -/
def Records (miner : Miner) (job : Job) (fs : FileSystem) (stop : Stop × Nat)
    (file : CorpusFile) : Prop :=
  ∃ verdict, miner.judge fs stop.1 = .ok verdict ∧
    verdict.record? job miner.options stop.2 stop.1.path = some file ∧
    ∀ output tree, job = .dump output → verdict = .accepted tree →
      ∃ name, documentName stop.2 miner.options.sequenceWidth = .ok name

/-- A file at a location is the document of one of the numbered stops. -/
def IsDocument (miner : Miner) (out : Location) (fs : FileSystem) (numbered : List (Stop × Nat))
    (location : Location) (node : FileNode) : Prop :=
  ∃ stop ∈ numbered, ∃ tree name, miner.judge fs stop.1 = .ok (.accepted tree) ∧
    documentName stop.2 miner.options.sequenceWidth = .ok (Name.text name) ∧
    location = name :: out ∧ node = .file (tree.encoding miner.options.encoding).bytes

theorem judge_eq_directory {miner : Miner} {fs : FileSystem} {stop : Stop} {verdict : Verdict}
    (h : miner.judge fs stop = .ok verdict) :
    stop.isDirectory = true ↔ verdict = .directory := by
  have hfile : ∀ {path name}, miner.judgeFile fs path name ≠ .ok .directory := by
    intro path name
    rw [judgeFile]
    split
    · simp
    · cases fs.read path with
      | error e => simp
      | ok bytes =>
        simp only
        cases (Utf8.read path bytes).bind (miner.parser path) <;> simp
  cases stop with
  | directory => simp_all [judge, Stop.isDirectory, eq_comm]
  | lost => simp [judge] at h
  | file path name =>
    simp only [Stop.isDirectory, Bool.false_eq_true, false_iff]
    rintro rfl
    exact hfile h
  | link path name =>
    simp only [Stop.isDirectory, Bool.false_eq_true, false_iff]
    rintro rfl
    simp only [judge] at h
    split at h
    · simp at h
    · simp at h
    · exact hfile h

end Miner

theorem Verdict.record?_eq_none {job : Job} {options : BuildOptions} {sequence : Nat} {path : Text}
    {verdict : Verdict} :
    verdict.record? job options sequence path = none ↔ verdict = .directory := by
  cases verdict <;> simp [Verdict.record?]

namespace Run

variable {base : FileSystem} {Dir : Location → Prop} {miner : Miner} {job : Job}

theorem sequence_settle {run next : Run base} {options : BuildOptions} {path : Text}
    {verdict : Verdict} (h : run.settle options job path verdict = .ok next) :
    next.sequence = run.sequence := by
  rw [sequence, settle_report h]
  cases verdict.record? job options run.sequence path with
  | none => rfl
  | some file => exact BuildReport.entriesVisited_push _ file

/-- A stop takes the next number. -/
theorem sequence_take {run next : Run base} {stop : Stop}
    (h : run.take miner job stop = .ok next) : next.sequence = run.sequence + 1 := by
  obtain ⟨verdict, -, hsettle⟩ := take_eq_ok h
  exact sequence_settle hsettle

theorem sequence_foldlM_take {stops : List Stop} {run last : Run base}
    (h : stops.foldlM (take miner job) run = .ok last) :
    last.sequence = run.sequence + stops.length := by
  induction stops generalizing run with
  | nil =>
    cases h
    rfl
  | cons stop stops ih =>
    obtain ⟨next, htake, h⟩ := exists_of_foldlM_cons h
    rw [ih h, sequence_take htake, List.length_cons]
    omega

theorem files_take {run next : Run base} {stop : Stop} {verdict : Verdict}
    (hjudge : miner.judge run.fs stop = .ok verdict)
    (h : run.take miner job stop = .ok next) :
    next.report.files = run.report.files ++
      (verdict.record? job miner.options (run.sequence + 1) stop.path).toList := by
  obtain ⟨verdict', hjudge', hsettle⟩ := take_eq_ok h
  rw [hjudge, Except.ok.injEq] at hjudge'
  rw [settle_report hsettle, ← hjudge']
  change BuildReport.files ((verdict.record? job miner.options (run.sequence + 1) stop.path).elim
    run.visit.report run.visit.report.push) = _
  cases verdict.record? job miner.options (run.sequence + 1) stop.path with
  | none => exact (List.append_nil _).symm
  | some file => exact BuildReport.files_push _ file

/-- What settling a verdict does to the file system. -/
theorem fs_settle {output : Text} {out : Location} (hout : base.documentDirectory output = .ok out)
    {run next : Run base} (hrun : run.Grown Dir) {options : BuildOptions} {path : Text}
    {verdict : Verdict} (h : run.settle options (.dump output) path verdict = .ok next) :
    (∃ tree name isDirectory isFree, verdict = .accepted tree ∧
      documentName run.sequence options.sequenceWidth = .ok (Name.text name) ∧
      next.fs = run.fs.insert out name isDirectory isFree
        (.file (tree.encoding options.encoding).bytes)) ∨
    (∀ tree, verdict ≠ .accepted tree) ∧ next.fs = run.fs := by
  cases verdict with
  | directory => cases h; exact Or.inr ⟨by simp, rfl⟩
  | otherExtension => cases h; exact Or.inr ⟨by simp, rfl⟩
  | unparsable => cases h; exact Or.inr ⟨by simp, rfl⟩
  | accepted tree =>
    left
    obtain ⟨name, hname, hcreate, -⟩ := writeDocument_eq_ok h
    have hout' := (FileSystem.documentDirectory_grows hrun).mpr hout
    obtain ⟨valid, isDirectory, isFree, hmade⟩ := createFile_document hout' hname hcreate
    exact ⟨tree, ⟨name, valid⟩, isDirectory, isFree, rfl, hname, hmade⟩

/-- Each stop that is no directory has one record, in the order of the stops. -/
theorem records_foldlM_take (hjob : job.WritesIn base Dir) {stops : List Stop} {run last : Run base}
    (hrun : run.Grown Dir) (h : stops.foldlM (take miner job) run = .ok last) :
    ∃ files, last.report.files = run.report.files ++ files ∧
      List.Forall₂ (miner.Records job last.fs)
        ((stops.zipIdx (run.sequence + 1)).filter (!·.1.isDirectory)) files := by
  induction stops generalizing run with
  | nil =>
    cases h
    exact ⟨[], by simp, by simp⟩
  | cons stop stops ih =>
    obtain ⟨next, htake, h⟩ := exists_of_foldlM_cons h
    have hnext := grown_take hjob hrun htake
    obtain ⟨verdict, hjudge, hsettle⟩ := take_eq_ok htake
    have hgrow : GrowsBy (FileIn Dir) run.fs last.fs :=
      (take_grows hjob hrun htake).trans (grows_foldlM_take hjob hnext h)
    have hlast := Miner.judge_eq_ok_grows hgrow hjudge
    obtain ⟨files, hfiles, hrecords⟩ := ih hnext h
    rw [sequence_take htake] at hrecords
    rw [files_take hjudge htake] at hfiles
    refine ⟨(verdict.record? job miner.options (run.sequence + 1) stop.path).toList ++ files,
      by rw [hfiles, List.append_assoc], ?_⟩
    rw [List.zipIdx_cons, List.filter_cons]
    cases hrecord : verdict.record? job miner.options (run.sequence + 1) stop.path with
    | none =>
      have hdirectory := (Miner.judge_eq_directory hjudge).mpr
        (Verdict.record?_eq_none.mp hrecord)
      simpa [hdirectory] using hrecords
    | some file =>
      have hfile : stop.isDirectory = false := by
        rw [Bool.eq_false_iff, ne_eq, Miner.judge_eq_directory hjudge]
        intro hdirectory
        rw [Verdict.record?_eq_none.mpr hdirectory] at hrecord
        simp at hrecord
      have hfirst : miner.Records job last.fs (stop, run.sequence + 1) file := by
        refine ⟨verdict, hlast, hrecord, ?_⟩
        rintro output tree rfl rfl
        obtain ⟨name, hname, -⟩ := writeDocument_eq_ok hsettle
        exact ⟨name, hname⟩
      simpa [hfile] using List.Forall₂.cons hfirst hrecords

/-- A step of a dump adds the document of its stop, if the stop has one. -/
theorem documents_take {output : Text} {out : Location}
    (hout : base.documentDirectory output = .ok out) {run next : Run base} {stop : Stop}
    {last : FileSystem} (hrun : run.Grown (· = out))
    (hgrow : GrowsBy (FileIn (· = out)) next.fs last)
    (h : run.take miner (.dump output) stop = .ok next) :
    GrowsBy (miner.IsDocument out last [(stop, run.sequence + 1)]) run.fs next.fs ∧
      ∀ location node, miner.IsDocument out last [(stop, run.sequence + 1)] location node →
        run.fs.get? location = none ∧ next.fs.get? location = some node := by
  obtain ⟨verdict, hjudge, hsettle⟩ := take_eq_ok h
  have hjob := Job.writesIn_dump hout
  have hlast := Miner.judge_eq_ok_grows ((take_grows hjob hrun h).trans hgrow) hjudge
  have hvisit : run.visit.Grown (· = out) := hrun
  obtain ⟨tree, name, isDirectory, isFree, rfl, hname, hfs⟩ | ⟨hnot, hfs⟩ :=
    fs_settle hout hvisit hsettle
  · constructor
    · rw [hfs]
      exact GrowsBy.insert run.fs isDirectory isFree
        ⟨_, List.mem_singleton.mpr rfl, tree, name, hlast, hname, rfl, rfl⟩
    · rintro location node ⟨stop', hmem, tree', name', hjudge', hname', rfl, rfl⟩
      obtain rfl := List.mem_singleton.mp hmem
      rw [hlast, Except.ok.injEq, Verdict.accepted.injEq] at hjudge'
      have htext : Name.text name' = name.text := by
        simpa using hname'.symm.trans hname
      rw [Name.eq_of_text_eq htext, hfs, ← hjudge']
      exact ⟨isFree, FileSystem.get?_insert_self run.fs isDirectory isFree _⟩
  · constructor
    · rw [hfs]
      exact GrowsBy.refl run.fs
    · rintro location node ⟨stop', hmem, tree', name', hjudge', -⟩
      obtain rfl := List.mem_singleton.mp hmem
      rw [hlast, Except.ok.injEq] at hjudge'
      exact absurd hjudge' (hnot tree')

/-- A dump adds the documents of its stops and nothing else, each where nothing was. -/
theorem documents_foldlM_take {output : Text} {out : Location}
    (hout : base.documentDirectory output = .ok out) {stops : List Stop} {run last : Run base}
    (hrun : run.Grown (· = out)) (h : stops.foldlM (take miner (.dump output)) run = .ok last) :
    GrowsBy (miner.IsDocument out last.fs (stops.zipIdx (run.sequence + 1))) run.fs last.fs ∧
      ∀ location node,
        miner.IsDocument out last.fs (stops.zipIdx (run.sequence + 1)) location node →
          run.fs.get? location = none ∧ last.fs.get? location = some node := by
  have hjob := Job.writesIn_dump hout
  induction stops generalizing run with
  | nil =>
    cases h
    refine ⟨GrowsBy.refl _, ?_⟩
    rintro location node ⟨stop, hmem, -⟩
    simp at hmem
  | cons stop stops ih =>
    obtain ⟨next, htake, h⟩ := exists_of_foldlM_cons h
    have hnext := grown_take hjob hrun htake
    have hrest := grows_foldlM_take hjob hnext h
    obtain ⟨hgrows, hdocuments⟩ := ih hnext h
    obtain ⟨hgrow, hdocument⟩ := documents_take hout hrun hrest htake
    rw [sequence_take htake] at hgrows hdocuments
    rw [List.zipIdx_cons]
    constructor
    · refine (hgrow.mono ?_).trans (hgrows.mono ?_)
      · rintro location node ⟨first, hmem, hfirst⟩
        exact ⟨first, List.mem_cons.mpr (Or.inl (List.mem_singleton.mp hmem)), hfirst⟩
      · rintro location node ⟨later, hmem, hlater⟩
        exact ⟨later, List.mem_cons_of_mem _ hmem, hlater⟩
    · rintro location node ⟨some, hmem, hsome⟩
      cases List.mem_cons.mp hmem with
      | inl hfirst =>
        obtain ⟨hfree, hthere⟩ :=
          hdocument location node ⟨some, List.mem_singleton.mpr hfirst, hsome⟩
        exact ⟨hfree, hrest.get?_of_some hthere⟩
      | inr hlater =>
        obtain ⟨hfree, hthere⟩ := hdocuments location node ⟨some, hlater, hsome⟩
        exact ⟨(take_grows hjob hrun htake).get?_of_none hfree, hthere⟩

end Run

end TokenCorpus
