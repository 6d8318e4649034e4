import TokenCorpus.Proofs.Corpus.Counting
import TokenCorpus.Proofs.Corpus.Preservation

/-!
Collisions.

A build into a directory that is there fails at the first script whose document has its place taken,
and at nothing else, as long as everything else can be done: each entry can be visited and read, and
each document has a name and a path that the file system takes. Main statements: when a build
succeeds, where it fails otherwise, and what becomes of a build that is made a second time.
-/

namespace TokenCorpus

open FileSystem (GrowsBy FileIn)

namespace Miner

variable {miner : Miner} {fs : FileSystem} {input output : Text} {out : Location}
  {stops : List Stop}

/-- A build in which only a taken place can go wrong. The directory for documents is there and the
walk does not enter it, all entries can be visited and read, and all documents have names and
paths that are short enough. -/
structure Dumpable (miner : Miner) (fs : FileSystem) (input output : Text) (out : Location)
    (stops : List Stop) : Prop where
  out_eq : fs.findDirectory output = .ok out
  outside : OutsideWalk fs input output
  stops_eq : fs.itinerary input = .ok stops
  judged : ∀ stop ∈ stops, ∃ verdict, miner.judge fs stop = .ok verdict
  width_le : miner.options.sequenceWidth ≤ 251
  fits : fitsWidth stops.length miner.options.sequenceWidth
  short : ∀ stop ∈ stops.zipIdx 1, ∀ tree name, miner.Accepts fs stop.1 tree →
    documentName stop.2 miner.options.sequenceWidth = .ok name →
      ¬ Path.isTooLong (Path.join output name)

/-- The numbered stop is a script, and something is in the place for its document. -/
def Occupied (miner : Miner) (fs : FileSystem) (out : Location) (stop : Stop × Nat) : Prop :=
  ∃ tree name node, miner.Accepts fs stop.1 tree ∧
    documentName stop.2 miner.options.sequenceWidth = .ok (Name.text name) ∧
    fs.get? (name :: out) = some node

/-- A file system has become another by gaining the documents of the numbered stops, all of them and
nothing else, each where nothing was. -/
structure Wrote (miner : Miner) (fs : FileSystem) (out : Location) (numbered : List (Stop × Nat))
    (after : FileSystem) : Prop where
  only : GrowsBy (miner.IsDocument out fs numbered) fs after
  each : ∀ location node, miner.IsDocument out fs numbered location node →
    fs.get? location = none ∧ after.get? location = some node

namespace Dumpable

variable {later : FileSystem} {Dir : Location → Prop}

theorem documentDirectory_eq (h : miner.Dumpable fs input output out stops) :
    fs.documentDirectory output = .ok out :=
  FileSystem.documentDirectory_of_findDirectory h.out_eq

/-- The verdicts on the stops stand when files are added. -/
theorem judge_eq (h : miner.Dumpable fs input output out stops)
    (hgrow : GrowsBy (FileIn Dir) fs later) {stop : Stop} (hstop : stop ∈ stops) :
    miner.judge later stop = miner.judge fs stop := by
  obtain ⟨verdict, hverdict⟩ := h.judged stop hstop
  rw [hverdict, judge_eq_ok_grows hgrow hverdict]

theorem accepts_iff (h : miner.Dumpable fs input output out stops)
    (hgrow : GrowsBy (FileIn Dir) fs later) {stop : Stop} (hstop : stop ∈ stops) (tree : Node) :
    miner.Accepts later stop tree ↔ miner.Accepts fs stop tree := by
  rw [← judge_eq_accepted, ← judge_eq_accepted, h.judge_eq hgrow hstop]

/-- The document of each script has a name that a directory entry can have. -/
theorem exists_name (h : miner.Dumpable fs input output out stops) {stop : Stop × Nat}
    (hstop : stop ∈ stops.zipIdx 1) {tree : Node} (haccepts : miner.Accepts fs stop.1 tree) :
    ∃ name, documentName stop.2 miner.options.sequenceWidth = .ok (Name.text name) ∧
      ¬ Path.isTooLong (Path.join output (Name.text name)) := by
  have hpos : 0 < stop.2 := List.le_snd_of_mem_zipIdx hstop
  have hle : stop.2 < stops.length + 1 := List.snd_lt_of_mem_zipIdx hstop
  have hwritable : Run.Writable miner.options output stop.2 := by
    refine ⟨?_, h.width_le, fun name hname => h.short stop hstop tree name haccepts hname⟩
    rw [fitsWidth_iff]
    have hfits := fitsWidth_iff.mp h.fits
    omega
  exact hwritable.exists_name hpos

/-- A build ends as the fold over its stops ends. -/
theorem build_of_fold (h : miner.Dumpable fs input output out stops) :
    (∀ failure, stops.foldlM (Run.take miner (.dump output)) (miner.opening fs input output) =
        .error failure →
      miner.build fs input output = ⟨failure.run.fs, failure.run.log, .error failure.cause⟩) ∧
    ∀ last, stops.foldlM (Run.take miner (.dump output)) (miner.opening fs input output) =
        .ok last →
      miner.build fs input output =
        ⟨last.fs, last.log ++ [.buildComplete last.report], .ok last.report⟩ := by
  have hdirectory : fs.isDirectory output :=
    FileSystem.isDirectory_iff_findDirectory.mpr ⟨out, h.out_eq⟩
  have hjob : Job.WritesIn fs (· = out) (.dump output) := ⟨out, h.documentDirectory_eq, rfl⟩
  have hclear := h.outside.not_entered h.documentDirectory_eq stops h.stops_eq
  have hall : (miner.opening fs input output).all miner (.dump output) input =
      stops.foldlM (Run.take miner (.dump output)) (miner.opening fs input output) :=
    Run.all_eq hjob h.stops_eq hclear _ rfl
  rw [build, prepareOutput_of_isDirectory hdirectory, ← hall]
  simp only [opening]
  constructor
  · intro failure hfails
    rw [hfails]
  · intro last hends
    rw [hends]

theorem isDocument_iff (h : miner.Dumpable fs input output out stops)
    (hgrow : GrowsBy (FileIn Dir) fs later) {numbered : List (Stop × Nat)}
    (hsub : ∀ stop ∈ numbered, stop.1 ∈ stops) (location : Location) (node : FileNode) :
    miner.IsDocument out later numbered location node ↔
      miner.IsDocument out fs numbered location node := by
  constructor
  · rintro ⟨stop, hmem, tree, name, hjudge, hdocument⟩
    rw [h.judge_eq hgrow (hsub stop hmem)] at hjudge
    exact ⟨stop, hmem, tree, name, hjudge, hdocument⟩
  · rintro ⟨stop, hmem, tree, name, hjudge, hdocument⟩
    rw [← h.judge_eq hgrow (hsub stop hmem)] at hjudge
    exact ⟨stop, hmem, tree, name, hjudge, hdocument⟩

section Folds

variable {before rest : List Stop} {last : Run fs}

theorem grown_of_fold (h : miner.Dumpable fs input output out stops)
    (hfold : before.foldlM (Run.take miner (.dump output)) (miner.opening fs input output) =
      .ok last) : GrowsBy (FileIn (· = out)) fs last.fs := by
  have hjob : Job.WritesIn fs (· = out) (.dump output) := ⟨out, h.documentDirectory_eq, rfl⟩
  have hstart : (miner.opening fs input output).Grown (· = out) := GrowsBy.refl fs
  exact Run.grown_foldlM_take hjob hstart hfold

/-- The first part of the stops, once it has been come through, has been written. -/
theorem wrote_of_fold (h : miner.Dumpable fs input output out stops)
    (hsub : ∀ stop ∈ before, stop ∈ stops)
    (hfold : before.foldlM (Run.take miner (.dump output)) (miner.opening fs input output) =
      .ok last) : miner.Wrote fs out (before.zipIdx 1) last.fs := by
  have hnumbered : ∀ stop ∈ before.zipIdx 1, stop.1 ∈ stops :=
    fun stop hmem => hsub _ (List.fst_mem_of_mem_zipIdx hmem)
  have hiff := h.isDocument_iff (h.grown_of_fold hfold) hnumbered
  have hstart : (miner.opening fs input output).Grown (· = out) := GrowsBy.refl fs
  obtain ⟨hgrows, hdocuments⟩ := Run.documents_foldlM_take h.documentDirectory_eq hstart hfold
  refine ⟨hgrows.mono fun location node => (hiff location node).mp, fun location node hdocument => ?_⟩
  exact hdocuments location node ((hiff location node).mpr hdocument)

/-- A stop at which the build fails is a script, and something is in the place for its document. -/
theorem occupied_of_failure (h : miner.Dumpable fs input output out stops) {stop : Stop}
    (hsplit : stops = before ++ stop :: rest)
    (hfold : before.foldlM (Run.take miner (.dump output)) (miner.opening fs input output) =
      .ok last) {failure : Failure fs} (htake : last.take miner (.dump output) stop = .error failure) :
    failure.run.fs = last.fs ∧ miner.Occupied fs out (stop, before.length + 1) ∧
      ∃ name, documentName (before.length + 1) miner.options.sequenceWidth = .ok name ∧
        failure.cause =
          .raised (.outputCollision (before.length + 1) (Path.join output name)) := by
  have hgrow := h.grown_of_fold hfold
  have hmem : stop ∈ stops := by
    rw [hsplit]
    simp
  have hnumbered : (stop, before.length + 1) ∈ stops.zipIdx 1 := by
    rw [hsplit, List.zipIdx_append, List.zipIdx_cons]
    simp [Nat.add_comm]
  have hsequence : last.visit.sequence = before.length + 1 := by
    have hlast := Run.sequence_foldlM_take hfold
    rw [sequence_opening, Nat.zero_add] at hlast
    exact congrArg (· + 1) hlast
  obtain ⟨hrun, ⟨e, hjudge, -⟩ | ⟨verdict, hjudge, hsettle⟩⟩ := Run.take_eq_error htake
  · obtain ⟨verdict, hverdict⟩ := h.judged stop hmem
    rw [h.judge_eq hgrow hmem, hverdict] at hjudge
    cases hjudge
  · have hout : last.visit.fs.documentDirectory output = .ok out :=
      (FileSystem.documentDirectory_grows hgrow).mpr h.documentDirectory_eq
    obtain ⟨tree, rfl, hends⟩ := Run.settle_eq_error hout hsettle
    rw [h.judge_eq hgrow hmem] at hjudge
    have haccepts := judge_eq_accepted.mp hjudge
    obtain ⟨name, hname, hshort⟩ := h.exists_name hnumbered haccepts
    rw [hsequence] at hends
    obtain hunnamed | ⟨name', node, hname', hthere, hcause⟩ | ⟨name', hname', hlong, -⟩ := hends
    · rw [hname] at hunnamed
      cases hunnamed
    · have hbefore := get?_later h.documentDirectory_eq hfold (Nat.lt_succ_self _) hname'
      refine ⟨by rw [hrun]; rfl, ⟨tree, name', node, haccepts, hname', ?_⟩, _, hname', hcause⟩
      rw [← hbefore]
      exact hthere
    · rw [hname, Except.ok.injEq] at hname'
      rw [← hname'] at hlong
      rcases hlong with hlong | hlong
      · exact absurd hlong hshort
      · exact absurd name.valid.2.2.2.2 (Nat.not_le.mpr hlong)

end Folds

/-- A build comes through all its stops, if no place is taken, or up to the first stop whose place is
taken. -/
theorem build_cases (h : miner.Dumpable fs input output out stops) :
    (∃ last, stops.foldlM (Run.take miner (.dump output)) (miner.opening fs input output) =
        .ok last ∧
      miner.build fs input output =
        ⟨last.fs, last.log ++ [.buildComplete last.report], .ok last.report⟩) ∨
    ∃ before stop rest last name log, stops = before ++ stop :: rest ∧
      before.foldlM (Run.take miner (.dump output)) (miner.opening fs input output) = .ok last ∧
      miner.Occupied fs out (stop, before.length + 1) ∧
      documentName (before.length + 1) miner.options.sequenceWidth = .ok name ∧
      miner.build fs input output =
        ⟨last.fs, log,
          .error (.raised (.outputCollision (before.length + 1) (Path.join output name)))⟩ := by
  cases hfold : stops.foldlM (Run.take miner (.dump output)) (miner.opening fs input output) with
  | ok last => exact Or.inl ⟨last, rfl, h.build_of_fold.2 last hfold⟩
  | error failure =>
    obtain ⟨before, stop, rest, last, hsplit, hbefore, htake⟩ := foldlM_eq_error hfold
    obtain ⟨hfs, hoccupied, name, hname, hcause⟩ := h.occupied_of_failure hsplit hbefore htake
    refine Or.inr ⟨before, stop, rest, last, name, failure.run.log, hsplit, hbefore, hoccupied, hname, ?_⟩
    rw [h.build_of_fold.1 failure hfold, hfs, hcause]

end Dumpable

theorem Wrote.not_occupied {numbered : List (Stop × Nat)} {after : FileSystem}
    (h : miner.Wrote fs out numbered after) {stop : Stop × Nat} (hmem : stop ∈ numbered) :
    ¬ miner.Occupied fs out stop := by
  rintro ⟨tree, name, node, haccepts, hname, hthere⟩
  have hfree := (h.each (name :: out) _
    ⟨stop, hmem, tree, name, judge_eq_accepted.mpr haccepts, hname, rfl, rfl⟩).1
  rw [hthere] at hfree
  cases hfree

theorem mem_zipIdx_of_split {before rest : List Stop} {stop : Stop}
    (hsplit : stops = before ++ stop :: rest) : (stop, before.length + 1) ∈ stops.zipIdx 1 := by
  rw [hsplit, List.zipIdx_append, List.zipIdx_cons, Nat.add_comm 1]
  exact List.mem_append_right _ List.mem_cons_self

/-- The stops before one are those with a smaller number. -/
theorem filter_zipIdx_before {before rest : List Stop} {stop : Stop}
    (hsplit : stops = before ++ stop :: rest) :
    (stops.zipIdx 1).filter (·.2 < before.length + 1) = before.zipIdx 1 := by
  have hbefore : (before.zipIdx 1).filter (·.2 < before.length + 1) = before.zipIdx 1 := by
    refine List.filter_eq_self.mpr fun earlier hmem => ?_
    exact decide_eq_true (List.snd_lt_of_mem_zipIdx hmem)
  have hrest : ((stop :: rest).zipIdx (1 + before.length)).filter (·.2 < before.length + 1) = [] := by
    refine List.filter_eq_nil_iff.mpr fun later hmem => ?_
    have hle := List.le_snd_of_mem_zipIdx hmem
    rw [decide_eq_true_eq]
    omega
  rw [hsplit, List.zipIdx_append, List.filter_append, hbefore, hrest, List.append_nil]

/-- A stop at which a build collides: its place is the first one that is taken, and the documents of
the stops before have been written. -/
structure CollidesAt (miner : Miner) (fs : FileSystem) (output : Text) (out : Location)
    (stops : List Stop) (stop : Stop × Nat) (after : Outcome BuildReport) : Prop where
  mem : stop ∈ stops.zipIdx 1
  occupied : miner.Occupied fs out stop
  first : ∀ earlier ∈ stops.zipIdx 1, earlier.2 < stop.2 → ¬ miner.Occupied fs out earlier
  result_eq : ∃ name, documentName stop.2 miner.options.sequenceWidth = .ok name ∧
    after.result = .error (.raised (.outputCollision stop.2 (Path.join output name)))
  wrote : miner.Wrote fs out ((stops.zipIdx 1).filter (·.2 < stop.2)) after.fs

namespace Dumpable

/-- A build succeeds, or it collides at a stop. -/
theorem collides_cases (h : miner.Dumpable fs input output out stops) :
    ((∃ report, (miner.build fs input output).result = .ok report) ∧
      ∀ stop ∈ stops.zipIdx 1, ¬ miner.Occupied fs out stop) ∨
    ((∀ report, (miner.build fs input output).result ≠ .ok report) ∧
      ∃ stop, miner.CollidesAt fs output out stops stop (miner.build fs input output)) := by
  obtain ⟨last, hfold, hbuild⟩ | ⟨before, stop, rest, last, name, log, hsplit, hfold, hoccupied,
    hname, hbuild⟩ := h.build_cases
  · have hwrote := h.wrote_of_fold (fun _ => id) hfold
    rw [hbuild]
    exact Or.inl ⟨⟨_, rfl⟩, fun stop hmem => hwrote.not_occupied hmem⟩
  · have hsub : ∀ stop ∈ before, stop ∈ stops := by
      intro stop hmem
      rw [hsplit]
      exact List.mem_append_left _ hmem
    have hwrote := h.wrote_of_fold hsub hfold
    rw [hbuild]
    refine Or.inr ⟨by simp, (stop, before.length + 1), mem_zipIdx_of_split hsplit, hoccupied, ?_,
      ⟨name, hname, rfl⟩, ?_⟩
    · intro earlier hmem hlt
      refine hwrote.not_occupied ?_
      rw [← filter_zipIdx_before hsplit]
      exact List.mem_filter.mpr ⟨hmem, decide_eq_true hlt⟩
    · rw [filter_zipIdx_before hsplit]
      exact hwrote

/-! ## A second build -/

/-- What can be dumped can be dumped again. -/
theorem again (h : miner.Dumpable fs input output out stops) (hroot : fs.findDirectory input ≠ .ok out)
    {later : FileSystem} (hgrow : GrowsBy (FileIn (· = out)) fs later) :
    miner.Dumpable later input output out stops := by
  have hclear : ∀ stop ∈ stops, ∀ d, stop.entered = some d → ¬ d = out :=
    h.outside.not_entered h.documentDirectory_eq stops h.stops_eq
  have hstops : later.itinerary input = .ok stops := by
    refine FileSystem.itinerary_grows hgrow h.stops_eq ?_ hclear
    rintro root hfind rfl
    exact hroot hfind
  refine ⟨(FileSystem.findDirectory_grows hgrow).mpr h.out_eq, ?_, hstops, ?_, h.width_le, h.fits, ?_⟩
  · intro out' stops' hout' hstops' stop hmem
    rw [hstops, Except.ok.injEq] at hstops'
    rw [← hstops'] at hmem
    exact h.outside out' stops ((FileSystem.documentDirectory_grows hgrow).mp hout') h.stops_eq stop
      hmem
  · intro stop hmem
    rw [h.judge_eq hgrow hmem]
    exact h.judged stop hmem
  · intro stop hmem tree name haccepts
    rw [h.accepts_iff hgrow (List.fst_mem_of_mem_zipIdx hmem)] at haccepts
    exact h.short stop hmem tree name haccepts

end Dumpable

theorem Wrote.eq_of_none {numbered : List (Stop × Nat)} {after : FileSystem}
    (h : miner.Wrote fs out numbered after)
    (hnone : ∀ stop ∈ numbered, ∀ tree, ¬ miner.Accepts fs stop.1 tree) : after = fs := by
  refine h.only.eq_of_not ?_
  rintro location node ⟨stop, hmem, tree, name, hjudge, -⟩
  exact hnone stop hmem tree (judge_eq_accepted.mp hjudge)

section Records

variable {numbered : List (Stop × Nat)} {files : List CorpusFile}

theorem written_of_records {stop : Stop × Nat} {file : CorpusFile} {tree : Node} {name : Text}
    (h : miner.Records (.dump output) fs stop file) (haccepts : miner.Accepts fs stop.1 tree)
    (hname : documentName stop.2 miner.options.sequenceWidth = .ok name) :
    file = ⟨stop.2, stop.1.path, .written, some (Path.join output name)⟩ := by
  obtain ⟨verdict, hjudge, hrecord, -⟩ := h
  rw [judge_eq_accepted.mpr haccepts, Except.ok.injEq] at hjudge
  rw [← hjudge, Verdict.record?, Job.document?, hname, Option.some.injEq] at hrecord
  exact hrecord.symm

theorem not_written_of_records {stop : Stop × Nat} {file : CorpusFile}
    (h : miner.Records (.dump output) fs stop file)
    (hnone : ∀ tree, ¬ miner.Accepts fs stop.1 tree) : file.status ≠ .written := by
  obtain ⟨verdict, hjudge, hrecord, -⟩ := h
  cases verdict with
  | directory => cases hrecord
  | otherExtension =>
    cases hrecord
    exact nofun
  | unparsable =>
    cases hrecord
    exact nofun
  | accepted tree => exact absurd (judge_eq_accepted.mp hjudge) (hnone tree)

theorem find?_written_eq_none (h : List.Forall₂ (miner.Records (.dump output) fs) numbered files)
    (hnone : ∀ stop ∈ numbered, ∀ tree, ¬ miner.Accepts fs stop.1 tree) :
    files.find? (·.status = .written) = none := by
  induction h with
  | nil => rfl
  | cons hfirst _ ih =>
    rw [List.forall_mem_cons] at hnone
    rw [List.find?_cons_of_neg (by simpa using not_written_of_records hfirst hnone.1)]
    exact ih hnone.2

/-- The first record of a document is that of the first script. -/
theorem find?_written_eq_some {front back : List (Stop × Nat)} {stop : Stop × Nat} {tree : Node}
    {name : Text}
    (h : List.Forall₂ (miner.Records (.dump output) fs) (front ++ stop :: back) files)
    (hnone : ∀ earlier ∈ front, ∀ tree, ¬ miner.Accepts fs earlier.1 tree)
    (haccepts : miner.Accepts fs stop.1 tree)
    (hname : documentName stop.2 miner.options.sequenceWidth = .ok name) :
    files.find? (·.status = .written) =
      some ⟨stop.2, stop.1.path, .written, some (Path.join output name)⟩ := by
  induction front generalizing files with
  | nil =>
    cases h with
    | cons hfirst _ =>
      rw [written_of_records hfirst haccepts hname]
      rfl
  | cons earlier front ih =>
    cases h with
    | cons hfirst hrest =>
      rw [List.forall_mem_cons] at hnone
      rw [List.find?_cons_of_neg (by simpa using not_written_of_records hfirst hnone.1)]
      exact ih hrest hnone.2

theorem not_isDirectory_of_accepts {stop : Stop} {tree : Node} (h : miner.Accepts fs stop tree) :
    stop.isDirectory = false := by
  rw [Bool.eq_false_iff, ne_eq, judge_eq_directory (judge_eq_accepted.mpr h)]
  exact Verdict.noConfusion

/-- Records of stops that are split where the first script is. -/
theorem filter_zipIdx_split {before rest : List Stop} {stop : Stop} {tree : Node}
    (hsplit : stops = before ++ stop :: rest) (haccepts : miner.Accepts fs stop tree) :
    ∃ back, (stops.zipIdx 1).filter (!·.1.isDirectory) =
      (before.zipIdx 1).filter (!·.1.isDirectory) ++ (stop, before.length + 1) :: back := by
  refine ⟨(rest.zipIdx (before.length + 2)).filter (!·.1.isDirectory), ?_⟩
  have hfile := not_isDirectory_of_accepts haccepts
  rw [hsplit, List.zipIdx_append, List.zipIdx_cons, List.filter_append, Nat.add_comm 1,
    List.filter_cons_of_pos (by simp [hfile])]

end Records

end Miner

namespace Run

variable {base base' : FileSystem} {Dir : Location → Prop} {miner : Miner} {job : Job}

/-- Two runs that give a stop the same verdict report the same of it. -/
theorem report_take_congr {run next : Run base} {run' next' : Run base'} {stop : Stop}
    {verdict : Verdict} (hreport : run'.report = run.report)
    (hjudge : miner.judge run.fs stop = .ok verdict)
    (hjudge' : miner.judge run'.fs stop = .ok verdict) (h : run.take miner job stop = .ok next)
    (h' : run'.take miner job stop = .ok next') : next'.report = next.report := by
  obtain ⟨found, hfound, hsettle⟩ := take_eq_ok h
  obtain ⟨found', hfound', hsettle'⟩ := take_eq_ok h'
  rw [hjudge, Except.ok.injEq] at hfound
  rw [hjudge', Except.ok.injEq] at hfound'
  subst hfound hfound'
  have hvisit : run'.visit.report = run.visit.report := congrArg BuildReport.visit hreport
  have hsequence : run'.visit.sequence = run.visit.sequence :=
    congrArg BuildReport.entriesVisited hvisit
  rw [settle_report hsettle, settle_report hsettle', hsequence, hvisit]

/-- Two runs that come through the same stops with the same verdicts report the same. -/
theorem report_foldlM_take_congr (hjob : job.WritesIn base Dir) (hjob' : job.WritesIn base' Dir)
    {stops : List Stop} {run last : Run base} {run' last' : Run base'}
    (hjudges : ∀ stop ∈ stops, ∃ verdict, miner.judge base stop = .ok verdict ∧
      miner.judge base' stop = .ok verdict)
    (hrun : run.Grown Dir) (hrun' : run'.Grown Dir) (hreport : run'.report = run.report)
    (h : stops.foldlM (take miner job) run = .ok last)
    (h' : stops.foldlM (take miner job) run' = .ok last') : last'.report = last.report := by
  induction stops generalizing run run' with
  | nil =>
    cases h
    cases h'
    exact hreport
  | cons stop stops ih =>
    rw [List.forall_mem_cons] at hjudges
    obtain ⟨⟨verdict, hjudge, hjudge'⟩, hjudges⟩ := hjudges
    obtain ⟨next, htake, h⟩ := exists_of_foldlM_cons h
    obtain ⟨next', htake', h'⟩ := exists_of_foldlM_cons h'
    refine ih hjudges (grown_take hjob hrun htake) (grown_take hjob' hrun' htake') ?_ h h'
    exact report_take_congr hreport (Miner.judge_eq_ok_grows hrun hjudge)
      (Miner.judge_eq_ok_grows hrun' hjudge') htake htake'

end Run

namespace Miner

variable {miner : Miner} {fs : FileSystem} {input output : Text} {out : Location}
  {stops : List Stop}

namespace Dumpable

section Written

variable {last : Run fs}
  (hfold : stops.foldlM (Run.take miner (.dump output)) (miner.opening fs input output) = .ok last)

include hfold

theorem records_of_fold (h : miner.Dumpable fs input output out stops) :
    List.Forall₂ (miner.Records (.dump output) last.fs)
      ((stops.zipIdx 1).filter (!·.1.isDirectory)) last.report.files := by
  have hjob : Job.WritesIn fs (· = out) (.dump output) := ⟨out, h.documentDirectory_eq, rfl⟩
  have hstart : (miner.opening fs input output).Grown (· = out) := GrowsBy.refl fs
  obtain ⟨files, hfiles, hrecords⟩ := Run.records_foldlM_take hjob hstart hfold
  have hall : last.report.files = files := hfiles
  rw [hall]
  exact hrecords

/-- After a build that has come through all stops, the place of each script is taken. -/
theorem occupied_of_accepts (h : miner.Dumpable fs input output out stops) {stop : Stop × Nat}
    (hmem : stop ∈ stops.zipIdx 1) {tree : Node} (haccepts : miner.Accepts last.fs stop.1 tree) :
    miner.Occupied last.fs out stop := by
  have hgrow := h.grown_of_fold hfold
  have hbefore := (h.accepts_iff hgrow (List.fst_mem_of_mem_zipIdx hmem) tree).mp haccepts
  obtain ⟨name, hname, -⟩ := h.exists_name hmem hbefore
  have hdocument : miner.IsDocument out fs (stops.zipIdx 1) (name :: out)
      (.file (tree.encoding miner.options.encoding).bytes) :=
    ⟨stop, hmem, tree, name, judge_eq_accepted.mpr hbefore, hname, rfl, rfl⟩
  have hthere := (h.wrote_of_fold (fun _ => id) hfold).each _ _ hdocument
  exact ⟨tree, name, _, haccepts, hname, hthere.2⟩

/-- A second build through all stops reports what the first one did. -/
theorem report_of_fold (h : miner.Dumpable fs input output out stops)
    (h' : miner.Dumpable last.fs input output out stops) {last' : Run last.fs}
    (hfold' : stops.foldlM (Run.take miner (.dump output)) (miner.opening last.fs input output) =
      .ok last') : last'.report = last.report := by
  have hjob : Job.WritesIn fs (· = out) (.dump output) := ⟨out, h.documentDirectory_eq, rfl⟩
  have hjob' : Job.WritesIn last.fs (· = out) (.dump output) := ⟨out, h'.documentDirectory_eq, rfl⟩
  have hstart : (miner.opening fs input output).Grown (· = out) := GrowsBy.refl fs
  have hstart' : (miner.opening last.fs input output).Grown (· = out) := GrowsBy.refl last.fs
  refine Run.report_foldlM_take_congr hjob hjob' ?_ hstart hstart' rfl hfold hfold'
  intro stop hmem
  obtain ⟨verdict, hverdict⟩ := h.judged stop hmem
  exact ⟨verdict, hverdict, judge_eq_ok_grows (h.grown_of_fold hfold) hverdict⟩

end Written

/-- A build that succeeded and is made again fails at its first document. If it had none, it succeeds
with the same report. In any case nothing changes. -/
theorem rebuild (h : miner.Dumpable fs input output out stops)
    (hroot : fs.findDirectory input ≠ .ok out) {report : BuildReport}
    (hok : (miner.build fs input output).result = .ok report) :
    (miner.build (miner.build fs input output).fs input output).fs =
        (miner.build fs input output).fs ∧
      (report.files.find? (·.status = .written) = none →
        (miner.build (miner.build fs input output).fs input output).result = .ok report) ∧
      ∀ first, report.files.find? (·.status = .written) = some first →
        ∃ document, first.outputPath = some document ∧
          (miner.build (miner.build fs input output).fs input output).result =
            .error (.raised (.outputCollision first.sequence document)) := by
  obtain ⟨last, hfold, hbuild⟩ | ⟨_, _, _, _, _, _, -, -, -, -, hbuild⟩ := h.build_cases
  · rw [hbuild] at hok ⊢
    cases hok
    have hrecords := h.records_of_fold hfold
    have h' := h.again hroot (h.grown_of_fold hfold)
    obtain ⟨last', hfold', hbuild'⟩ | ⟨before, stop, rest, last', name, log, hsplit, hfold',
      ⟨tree, _, _, haccepts, -⟩, hname, hbuild'⟩ := h'.build_cases
    · have hwrote := h'.wrote_of_fold (fun _ => id) hfold'
      have hnone : ∀ stop ∈ stops.zipIdx 1, ∀ tree, ¬ miner.Accepts last.fs stop.1 tree :=
        fun stop hmem tree haccepts =>
          hwrote.not_occupied hmem (h.occupied_of_accepts hfold hmem haccepts)
      have hfind : last.report.files.find? (·.status = .written) = none :=
        find?_written_eq_none hrecords fun stop hmem => hnone stop (List.mem_of_mem_filter hmem)
      rw [hbuild']
      refine ⟨hwrote.eq_of_none hnone, fun _ => ?_, fun first hfirst => ?_⟩
      · exact congrArg Except.ok (h.report_of_fold hfold h' hfold')
      · rw [hfind] at hfirst
        cases hfirst
    · have hsub : ∀ earlier ∈ before, earlier ∈ stops := by
        intro earlier hmem
        rw [hsplit]
        exact List.mem_append_left _ hmem
      have hwrote := h'.wrote_of_fold hsub hfold'
      have hnone : ∀ earlier ∈ before.zipIdx 1, ∀ tree, ¬ miner.Accepts last.fs earlier.1 tree := by
        intro earlier hmem tree haccepts
        refine hwrote.not_occupied hmem (h.occupied_of_accepts hfold ?_ haccepts)
        rw [← filter_zipIdx_before hsplit] at hmem
        exact List.mem_of_mem_filter hmem
      obtain ⟨back, hback⟩ := filter_zipIdx_split hsplit haccepts
      rw [hback] at hrecords
      have hfind := find?_written_eq_some hrecords
        (fun earlier hmem => hnone earlier (List.mem_of_mem_filter hmem)) haccepts hname
      rw [hbuild']
      refine ⟨hwrote.eq_of_none hnone, fun hfirst => ?_, fun first hfirst => ?_⟩
      · rw [hfind] at hfirst
        cases hfirst
      · rw [hfind, Option.some.injEq] at hfirst
        rw [← hfirst]
        exact ⟨_, rfl, rfl⟩
  · rw [hbuild] at hok
    cases hok

end Dumpable

/-- A build collides exactly when it must: it succeeds if no place for a document is taken, and else it
fails at the first place that is, with all documents before written. A build that has succeeded
and is made again changes nothing. It fails at the first document that it had made, or succeeds
with the same report if there was none. -/
theorem build_collides (h : miner.Dumpable fs input output out stops) :
    ((∃ report, (miner.build fs input output).result = .ok report) ↔
      ∀ stop ∈ stops.zipIdx 1, ¬ miner.Occupied fs out stop) ∧
    ((∃ stop ∈ stops.zipIdx 1, miner.Occupied fs out stop) →
      ∃ stop, miner.CollidesAt fs output out stops stop (miner.build fs input output)) ∧
    (fs.findDirectory input ≠ .ok out → ∀ report,
      (miner.build fs input output).result = .ok report →
        (miner.build (miner.build fs input output).fs input output).fs =
            (miner.build fs input output).fs ∧
          (report.files.find? (·.status = .written) = none →
            (miner.build (miner.build fs input output).fs input output).result = .ok report) ∧
          ∀ first, report.files.find? (·.status = .written) = some first →
            ∃ document, first.outputPath = some document ∧
              (miner.build (miner.build fs input output).fs input output).result =
                .error (.raised (.outputCollision first.sequence document))) := by
  refine ⟨?_, ?_, fun hroot report => h.rebuild hroot⟩
  · obtain ⟨hok, hfree⟩ | ⟨hfail, stop, hcollides⟩ := h.collides_cases
    · exact ⟨fun _ => hfree, fun _ => hok⟩
    · constructor
      · rintro ⟨report, hok⟩
        exact absurd hok (hfail report)
      · intro hfree
        exact absurd hcollides.occupied (hfree stop hcollides.mem)
  · rintro ⟨stop, hmem, hoccupied⟩
    obtain ⟨-, hfree⟩ | ⟨-, hcollides⟩ := h.collides_cases
    · exact absurd hoccupied (hfree stop hmem)
    · exact hcollides

theorem not_occupied_of_empty (hempty : fs.names out = []) (stop : Stop × Nat) :
    ¬ miner.Occupied fs out stop := by
  rintro ⟨tree, name, node, -, -, hthere⟩
  have hname : name ∈ fs.names out := FileSystem.mem_names_iff.mpr ⟨node, hthere⟩
  rw [hempty] at hname
  cases hname

theorem smallStops_judged :
    ∀ stop ∈ smallStops, ∃ verdict, (ofScripts {}).judge smallProject stop = .ok verdict := by
  have hall : ∀ stop ∈ smallStops, ((ofScripts {}).judge smallProject stop).isOk = true := by
    decide +kernel
  intro stop hmem
  have hstop := hall stop hmem
  cases hjudge : (ofScripts {}).judge smallProject stop with
  | ok verdict => exact ⟨verdict, rfl⟩
  | error e =>
    rw [hjudge] at hstop
    cases hstop

theorem dumpable_smallProject :
    (ofScripts {}).Dumpable smallProject "in".toList "out".toList outputDir smallStops := by
  refine ⟨by decide +kernel, by decide +kernel, smallStops_eq, smallStops_judged, by decide,
    by decide, ?_⟩
  have hshort : ∀ stop ∈ smallStops.zipIdx 1, ((documentName stop.2 8).toOption.all
      fun name => !Path.isTooLong (Path.join "out".toList name)) = true := by
    decide +kernel
  intro stop hmem tree name _ hname
  have hname' := hshort stop hmem
  rw [show documentName stop.2 8 = .ok name from hname] at hname'
  simpa [Except.toOption] using hname'

/-- The second build of the small project fails at its only script. -/
theorem build_collides_smallProject :
    (ofScripts {}).Dumpable smallProject "in".toList "out".toList outputDir smallStops ∧
      (∃ report, ((ofScripts {}).build smallProject "in".toList "out".toList).result = .ok report) ∧
      ((ofScripts {}).build ((ofScripts {}).build smallProject "in".toList "out".toList).fs
          "in".toList "out".toList).result =
        .error (.raised (.outputCollision 2 "out/00000002.txt".toList)) := by
  have hdumpable := dumpable_smallProject
  obtain ⟨hiff, -, hagain⟩ := build_collides hdumpable
  have hempty : smallProject.names outputDir = [] := by decide +kernel
  obtain ⟨report, hok⟩ := hiff.mpr fun stop _ => not_occupied_of_empty hempty stop
  have hroot : smallProject.findDirectory "in".toList ≠ .ok outputDir := by decide +kernel
  have hwritten : ((ofScripts {}).build smallProject "in".toList "out".toList).result.toOption.bind
      (·.files.find? (·.status = .written)) =
        some ⟨2, "in/p/a.sutra".toList, .written, some "out/00000002.txt".toList⟩ := by
    decide +kernel
  rw [hok] at hwritten
  obtain ⟨-, -, hcollides⟩ := hagain hroot report hok
  obtain ⟨document, hdocument, hresult⟩ := hcollides _ hwritten
  cases hdocument
  exact ⟨hdumpable, ⟨report, hok⟩, hresult⟩

/-- The path of a document that could not be made because it is too long. -/
def refusedDocument? : Except (Abort BuildError) BuildReport → Option Text
  | .error (.raised (.io .create document .nameTooLong)) => some document
  | _ => none

theorem eq_of_refusedDocument? {result : Except (Abort BuildError) BuildReport} {document : Text}
    (h : refusedDocument? result = some document) :
    result = .error (.raised (.io .create document .nameTooLong)) := by
  rw [refusedDocument?.eq_def] at h
  split at h
  · cases h
    rfl
  · cases h

/-- The paths of documents must be short enough. Where they are not, a build fails although no place
is taken. -/
theorem build_fails_without_collision :
    (ofScripts {}).options.sequenceWidth ≤ 251 ∧
      smallProject.findDirectory slashedOutput = .ok outputDir ∧
      OutsideWalk smallProject "in".toList slashedOutput ∧
      smallProject.findDirectory "in".toList ≠ .ok outputDir ∧
      (∃ stops, smallProject.itinerary "in".toList = .ok stops ∧
        (∀ stop ∈ stops, ∃ verdict, (ofScripts {}).judge smallProject stop = .ok verdict) ∧
        fitsWidth stops.length (ofScripts {}).options.sequenceWidth ∧
        ∀ stop ∈ stops.zipIdx 1, ¬ (ofScripts {}).Occupied smallProject outputDir stop) ∧
      ∃ document, ((ofScripts {}).build smallProject "in".toList slashedOutput).result =
        .error (.raised (.io .create document .nameTooLong)) := by
  have hempty : smallProject.names outputDir = [] := by decide +kernel
  refine ⟨by decide, by decide +kernel, by decide +kernel, by decide +kernel,
    ⟨smallStops, smallStops_eq, smallStops_judged, by decide, ?_⟩, ?_⟩
  · exact fun stop _ => not_occupied_of_empty hempty stop
  · -- The path of the document is too long to be compared with a given one.
    have hlong : (refusedDocument? ((ofScripts {}).build smallProject "in".toList
        slashedOutput).result).isSome := by
      decide +kernel
    obtain ⟨document, hdocument⟩ := Option.isSome_iff_exists.mp hlong
    exact ⟨document, eq_of_refusedDocument? hdocument⟩

end Miner

end TokenCorpus
