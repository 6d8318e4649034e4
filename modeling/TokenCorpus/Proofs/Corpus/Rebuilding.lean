import TokenCorpus.Proofs.FileSystem.Compatible
import TokenCorpus.Proofs.Corpus.Numbering

/-!
Building a corpus anew, into another directory.

Two builds from one file system write into different directories, and each may come across what it has
written itself. If the same entries are walked, though, and both builds succeed, they stay in step:
what both can read is the same in both, so they judge each entry alike. They make the same documents,
and their reports differ only in where the documents are.
-/

namespace TokenCorpus

open FileSystem (GrowsBy FileIn)

/-! ## Reports -/

/-- A path of an entry of the directory `source`, as the path of an entry of `target`. -/
def Path.rebase (source target path : Text) : Text :=
  join target (path.drop (join source []).length)

theorem Path.rebase_join (source target name : Text) :
    rebase source target (join source name) = join target name := by
  have hjoin : join source name = join source [] ++ name := by
    rw [join, join]
    split
    · rw [List.append_nil]
    · rw [List.append_assoc]
      rfl
  rw [rebase, hjoin, List.drop_left]

/-- The record of a file whose document is in another directory. -/
def CorpusFile.relocate (source target : Text) (file : CorpusFile) : CorpusFile :=
  { file with outputPath := file.outputPath.map (Path.rebase source target) }

namespace BuildReport

/-- The report of a build into another directory. -/
def relocate (source target : Text) (report : BuildReport) : BuildReport :=
  { report with files := report.files.map (CorpusFile.relocate source target) }

theorem relocate_push (source target : Text) (report : BuildReport) (file : CorpusFile) :
    (report.push file).relocate source target =
      (report.relocate source target).push (file.relocate source target) := by
  obtain ⟨sequence, path, status, document⟩ := file
  cases status <;> simp [relocate, push, tally, CorpusFile.relocate]

end BuildReport

theorem Verdict.record?_relocate (source target : Text) (options : BuildOptions) (sequence : Nat)
    (path : Text) (verdict : Verdict) :
    verdict.record? (.dump target) options sequence path =
      (verdict.record? (.dump source) options sequence path).map
        (CorpusFile.relocate source target) := by
  have hdocument : Job.document? options sequence (.dump target) =
      (Job.document? options sequence (.dump source)).map (Path.rebase source target) := by
    rw [Job.document?, Job.document?, Option.map_map]
    congr 1
    funext name
    exact (Path.rebase_join source target name).symm
  cases verdict with
  | directory => rfl
  | otherExtension => rfl
  | unparsable => rfl
  | accepted tree =>
    rw [record?, record?, hdocument]
    rfl

/-! ## Verdicts -/

namespace Miner

variable {miner : Miner} {fs other : FileSystem}

theorem judgeFile_compatible (h : fs.Compatible other) {path : Text} {name : Name}
    {verdict verdict' : Verdict} (hjudge : miner.judgeFile fs path name = .ok verdict)
    (hjudge' : miner.judgeFile other path name = .ok verdict') : verdict' = verdict := by
  rw [judgeFile] at hjudge hjudge'
  split at hjudge
  · next hother =>
    rw [if_pos hother] at hjudge'
    cases hjudge
    cases hjudge'
    rfl
  · next haccepts =>
    rw [if_neg haccepts] at hjudge'
    cases hread : fs.read path with
    | error e =>
      rw [hread] at hjudge
      cases hjudge
    | ok content =>
      cases hread' : other.read path with
      | error e =>
        rw [hread'] at hjudge'
        cases hjudge'
      | ok content' =>
        rw [hread'] at hjudge'
        rw [h.content_eq hread hread'] at hjudge'
        rw [hread] at hjudge
        exact Except.ok.inj (hjudge'.symm.trans hjudge)

/-- What can be judged in compatible file systems is judged alike. -/
theorem judge_compatible (h : fs.Compatible other) {stop : Stop} {verdict verdict' : Verdict}
    (hjudge : miner.judge fs stop = .ok verdict) (hjudge' : miner.judge other stop = .ok verdict') :
    verdict' = verdict := by
  by_cases hdirectory : stop.isDirectory
  · rw [(judge_eq_directory hjudge).mp hdirectory, (judge_eq_directory hjudge').mp hdirectory]
  · obtain ⟨name, hname, hfile⟩ := exists_name_of_judge hjudge
      (mt (judge_eq_directory hjudge).mpr hdirectory)
    obtain ⟨name', hname', hfile'⟩ := exists_name_of_judge hjudge'
      (mt (judge_eq_directory hjudge').mpr hdirectory)
    rw [hname, Option.some.injEq] at hname'
    rw [← hname'] at hfile'
    exact judgeFile_compatible h hfile hfile'

end Miner

/-! ## Runs in parallel -/

/-- A file system on which a build begins: `fs` with the directories that its output path needs, of
which `out` is the one for documents. -/
structure Prepared (fs : FileSystem) (output : Text) (out : Location) (base : FileSystem) : Prop where
  grown : GrowsBy FileSystem.IsDirectory fs base
  ready : base.documentDirectory output = .ok out

namespace Run

variable {fs base base' : FileSystem} {miner : Miner} {output output' : Text} {out out' : Location}

/-- A document among what a run has added to the file system. -/
def Made (fs : FileSystem) (out : Location) (run : Run base) (name : Name) (content : Bytes) : Prop :=
  fs.get? (name :: out) = none ∧ run.fs.get? (name :: out) = some (.file content)

theorem not_made_start (hbase : Prepared fs output out base) (encoding : EncodingConfig)
    (log : List Event) {name : Name} {content : Bytes} :
    ¬ (Run.start base encoding log).Made fs out name content := by
  rintro ⟨hfree, hthere⟩
  obtain hold | ⟨-, hdirectory⟩ := hbase.grown.get?_cases hthere
  · rw [hfree] at hold
    cases hold
  · cases hdirectory

/-- Two runs that have come through the same stops and have written into different directories. -/
structure InParallel (fs : FileSystem) (output output' : Text) (out out' : Location)
    (run : Run base) (run' : Run base') : Prop where
  grown : run.Grown (· = out)
  grown' : run'.Grown (· = out')
  compatible : run.fs.Compatible run'.fs
  report_eq : run'.report = run.report.relocate output output'
  made_iff : ∀ name content, run.Made fs out name content ↔ run'.Made fs out' name content

theorem InParallel.start (hbase : Prepared fs output out base)
    (hbase' : Prepared fs output' out' base') (encoding : EncodingConfig) (log log' : List Event) :
    InParallel fs output output' out out' (Run.start base encoding log)
      (Run.start base' encoding log') := by
  refine ⟨GrowsBy.refl base, GrowsBy.refl base', .of_directories hbase.grown hbase'.grown, rfl, ?_⟩
  exact fun name content => iff_of_false (not_made_start hbase encoding log)
    (not_made_start hbase' encoding log')

/-- At a place that was free and is not in the directory for documents there is at most a directory. -/
theorem directory_of_free (hbase : Prepared fs output out base) {run : Run base}
    (hrun : run.Grown (· = out)) {name : Name} {dir : Location} {node : FileNode}
    (hfree : fs.get? (name :: dir) = none) (hget : run.fs.get? (name :: dir) = some node) :
    dir = out ∨ node = .directory := by
  obtain hold | ⟨-, name', dir', content, rfl, heq, -⟩ := hrun.get?_cases hget
  · obtain hold | ⟨-, hdirectory⟩ := hbase.grown.get?_cases hold
    · rw [hfree] at hold
      cases hold
    · exact Or.inr hdirectory
  · exact Or.inl (List.cons.inj heq).2

theorem made_insert {run next : Run base} {name : Name} {content : Bytes}
    {isDirectory : run.fs.get? out = some .directory} {isFree : run.fs.get? (name :: out) = none}
    (hbase : Prepared fs output out base) (hrun : run.Grown (· = out))
    (hfs : next.fs = run.fs.insert out name isDirectory isFree (.file content)) (other : Name)
    (found : Bytes) :
    next.Made fs out other found ↔ (other = name ∧ found = content) ∨ run.Made fs out other found := by
  have hfree : fs.get? (name :: out) = none := hbase.grown.get?_of_none (hrun.get?_of_none isFree)
  rw [Made, Made, hfs]
  by_cases hname : other = name
  · rw [hname, FileSystem.get?_insert_self, isFree]
    simp [hfree, eq_comm]
  · have hne : other :: out ≠ name :: out := by simpa using hname
    rw [FileSystem.get?_insert_of_ne _ _ _ _ hne]
    simp [hname]

/-- Runs stay in parallel over a stop that both come past. -/
theorem InParallel.take (hbase : Prepared fs output out base)
    (hbase' : Prepared fs output' out' base') {run next : Run base} {run' next' : Run base'}
    (h : InParallel fs output output' out out' run run') {stop : Stop}
    (htake : run.take miner (.dump output) stop = .ok next)
    (htake' : run'.take miner (.dump output') stop = .ok next') :
    InParallel fs output output' out out' next next' := by
  have hjob : Job.WritesIn base (· = out) (.dump output) := ⟨out, hbase.ready, rfl⟩
  have hjob' : Job.WritesIn base' (· = out') (.dump output') := ⟨out', hbase'.ready, rfl⟩
  have hgrown := grown_take hjob h.grown htake
  have hgrown' := grown_take hjob' h.grown' htake'
  obtain ⟨verdict, hjudge, hsettle⟩ := take_eq_ok htake
  obtain ⟨verdict', hjudge', hsettle'⟩ := take_eq_ok htake'
  obtain rfl := Miner.judge_compatible h.compatible hjudge hjudge'
  have hvisit : run'.visit.report = run.visit.report.relocate output output' := by
    rw [visit, visit, h.report_eq]
    rfl
  have hsequence : run'.visit.sequence = run.visit.sequence := by
    rw [sequence, sequence, hvisit]
    rfl
  have hreport : next'.report = next.report.relocate output output' := by
    rw [settle_report hsettle, settle_report hsettle', hvisit, hsequence,
      Verdict.record?_relocate output output']
    cases verdict'.record? (.dump output) miner.options run.visit.sequence stop.path with
    | none => rfl
    | some file => exact (BuildReport.relocate_push _ _ _ _).symm
  have hrun : run.visit.Grown (· = out) := h.grown
  have hrun' : run'.visit.Grown (· = out') := h.grown'
  obtain ⟨tree, name, isDirectory, isFree, rfl, hname, hfs⟩ | ⟨hnone, hfs⟩ :=
    fs_settle hbase.ready hrun hsettle
  · obtain ⟨tree', name', isDirectory', isFree', htree, hname', hfs'⟩ | ⟨hnone', -⟩ :=
      fs_settle hbase'.ready hrun' hsettle'
    · cases htree
      have htext : Name.text name' = name.text := by
        rw [hsequence, hname, Except.ok.injEq] at hname'
        exact hname'.symm
      obtain rfl : name' = name := Name.eq_of_text_eq htext
      have hfree : fs.get? (name' :: out) = none :=
        hbase.grown.get?_of_none (hrun.get?_of_none isFree)
      have hfree' : fs.get? (name' :: out') = none :=
        hbase'.grown.get?_of_none (hrun'.get?_of_none isFree')
      refine ⟨hgrown, hgrown', ?_, hreport, fun other content => ?_⟩
      · rw [hfs, hfs']
        exact h.compatible.insert isDirectory isFree isDirectory' isFree' _
          (fun node hget => directory_of_free hbase hrun hfree' hget)
          fun node hget => directory_of_free hbase' hrun' hfree hget
      · rw [made_insert hbase hrun hfs, made_insert hbase' hrun' hfs']
        exact or_congr Iff.rfl (h.made_iff other content)
    · exact absurd rfl (hnone' tree)
  · obtain ⟨tree', -, -, -, rfl, -⟩ | ⟨-, hfs'⟩ := fs_settle hbase'.ready hrun' hsettle'
    · exact absurd rfl (hnone tree')
    · refine ⟨hgrown, hgrown', ?_, hreport, ?_⟩
      · rw [hfs, hfs']
        exact h.compatible
      · intro name content
        rw [Made, Made, hfs, hfs']
        exact h.made_iff name content

/-- Runs stay in parallel over stops that both come past. -/
theorem InParallel.foldlM_take (hbase : Prepared fs output out base)
    (hbase' : Prepared fs output' out' base') {stops : List Stop} {run last : Run base}
    {run' last' : Run base'} (h : InParallel fs output output' out out' run run')
    (hfold : stops.foldlM (Run.take miner (.dump output)) run = .ok last)
    (hfold' : stops.foldlM (Run.take miner (.dump output')) run' = .ok last') :
    InParallel fs output output' out out' last last' := by
  induction stops generalizing run run' with
  | nil =>
    cases hfold
    cases hfold'
    exact h
  | cons stop stops ih =>
    obtain ⟨next, htake, hfold⟩ := exists_of_foldlM_cons hfold
    obtain ⟨next', htake', hfold'⟩ := exists_of_foldlM_cons hfold'
    exact ih (h.take hbase hbase' htake htake') hfold hfold'

end Run

namespace Miner

variable {miner : Miner} {fs : FileSystem} {input output output' : Text}
  {report report' : BuildReport}

theorem eq_ok_of_toOption {α ε : Type} {result : Except ε α} {a : α} (h : a ∈ result.toOption) :
    result = .ok a := by
  cases result with
  | error e => cases h
  | ok b => rw [Option.some.inj h]

/-- A directory for documents that a walk does not notice: it is not there yet, the directories in
which the walk goes on get no new names when it is made, and whatever the walk meets leads somewhere
without it. -/
structure AwayFromWalk (fs : FileSystem) (input output : Text) (stops : List Stop) : Prop where
  itinerary_eq : fs.itinerary input = .ok stops
  free : ∀ out, (prepareOutput fs output).1.documentDirectory output = .ok out → fs.get? out = none
  root_names : ∀ root, fs.findDirectory input = .ok root →
    (prepareOutput fs output).1.names root = fs.names root
  names : ∀ stop ∈ stops, ∀ dir, stop.entered = some dir →
    (prepareOutput fs output).1.names dir = fs.names dir
  leads : ∀ stop ∈ stops, fs.leadsSomewhere stop.path

instance (fs : FileSystem) (input output : Text) (stops : List Stop) :
    Decidable (AwayFromWalk fs input output stops) :=
  decidable_of_iff
    (fs.itinerary input = .ok stops ∧
      (∀ out ∈ ((prepareOutput fs output).1.documentDirectory output).toOption,
        fs.get? out = none) ∧
      (∀ root ∈ (fs.findDirectory input).toOption,
        (prepareOutput fs output).1.names root = fs.names root) ∧
      (∀ stop ∈ stops, ∀ dir ∈ stop.entered, (prepareOutput fs output).1.names dir = fs.names dir) ∧
      ∀ stop ∈ stops, fs.leadsSomewhere stop.path)
    ⟨fun ⟨hstops, hfree, hroot, hnames, hleads⟩ =>
        ⟨hstops, fun out hout => hfree out (by rw [hout]; rfl),
          fun root hfind => hroot root (by rw [hfind]; rfl), hnames, hleads⟩,
      fun h => ⟨h.itinerary_eq, fun out hout => h.free out (eq_ok_of_toOption hout),
        fun root hroot => h.root_names root (eq_ok_of_toOption hroot), h.names, h.leads⟩⟩

namespace AwayFromWalk

variable {stops : List Stop}

/-- Making the directory leaves the walk as it is. -/
theorem itinerary_prepareOutput (h : AwayFromWalk fs input output stops) :
    (prepareOutput fs output).1.itinerary input = .ok stops := by
  have hgrow := prepareOutput_grows fs output
  refine FileSystem.itinerary_of_unnoticed hgrow h.itinerary_eq h.root_names fun stop hstop => ?_
  refine ⟨h.names stop hstop, fun hdirectory => ?_⟩
  obtain ⟨location, node, hland⟩ := FileSystem.leadsSomewhere_iff.mp (h.leads stop hstop)
  obtain ⟨dir, hafter⟩ := FileSystem.isDirectory_iff.mp hdirectory
  rw [FileSystem.land_node_of_grows hgrow hland] at hafter
  cases hafter
  exact FileSystem.isDirectory_iff.mpr ⟨location, hland⟩

theorem outsideWalk (h : AwayFromWalk fs input output stops) :
    OutsideWalk (prepareOutput fs output).1 input output := by
  rintro out stops' hout hstops' stop hstop hentered
  rw [h.itinerary_prepareOutput] at hstops'
  cases hstops'
  have hthere := FileSystem.get?_of_entered h.itinerary_eq hstop hentered
  rw [h.free out hout] at hthere
  cases hthere

end AwayFromWalk

/-- Two builds of one corpus that succeed have made the same documents, and their reports are equal
but for the paths of these. The walk over the input directory must be the same whichever of the two
directories for documents has been prepared, and must not enter it; so it is with new directories
that are `AwayFromWalk`. -/
theorem build_relocated
    (hsame : (prepareOutput fs output').1.itinerary input =
      (prepareOutput fs output).1.itinerary input)
    (houtside : OutsideWalk (prepareOutput fs output).1 input output)
    (houtside' : OutsideWalk (prepareOutput fs output').1 input output')
    (h : (miner.build fs input output).result = .ok report)
    (h' : (miner.build fs input output').result = .ok report') :
    report' = report.relocate output output' ∧
      ∃ out out', (miner.build fs input output).fs.documentDirectory output = .ok out ∧
        (miner.build fs input output').fs.documentDirectory output' = .ok out' ∧
        ∀ name content,
          (fs.get? (name :: out) = none ∧
            (miner.build fs input output).fs.get? (name :: out) = some (.file content)) ↔
          (fs.get? (name :: out') = none ∧
            (miner.build fs input output').fs.get? (name :: out') = some (.file content)) := by
  obtain ⟨base, out, stops, last, hprepare, hout, hstops, hfold, hfs, rfl⟩ :=
    build_eq_ok houtside h
  obtain ⟨base', out', stops', last', hprepare', hout', hstops', hfold', hfs', rfl⟩ :=
    build_eq_ok houtside' h'
  rw [hprepare, hprepare', hstops, hstops', Except.ok.injEq] at hsame
  subst hsame
  have hbase : Prepared fs output out base :=
    ⟨by simpa only [hprepare] using prepareOutput_grows fs output, hout⟩
  have hbase' : Prepared fs output' out' base' :=
    ⟨by simpa only [hprepare'] using prepareOutput_grows fs output', hout'⟩
  have hparallel := (Run.InParallel.start hbase hbase' _ _ _).foldlM_take hbase hbase' hfold hfold'
  refine ⟨hparallel.report_eq, out, out', ?_, ?_, ?_⟩
  · rw [hfs]
    exact (FileSystem.documentDirectory_grows hparallel.grown).mpr hout
  · rw [hfs']
    exact (FileSystem.documentDirectory_grows hparallel.grown').mpr hout'
  · rw [hfs, hfs']
    exact hparallel.made_iff

/-- Two builds of the small project into directories beside it. -/
theorem build_relocated_smallProject :
    ∃ report report',
      smallProject.leadsSomewhere "new".toList = false ∧
      smallProject.leadsSomewhere "other".toList = false ∧
      ((ofScripts {}).build smallProject "in".toList "new".toList).result = .ok report ∧
      ((ofScripts {}).build smallProject "in".toList "other".toList).result = .ok report' ∧
      report.documents = ["new/00000002.txt".toList] ∧
      report' = report.relocate "new".toList "other".toList := by
  have hbuilds : ∀ output ∈ ["new".toList, "other".toList],
      smallProject.leadsSomewhere output = false ∧
      ((ofScripts {}).build smallProject "in".toList output).result =
        .ok { encoding := {}, entriesVisited := 4, written := 1, skippedUnparsable := 1,
              skippedExtension := 1,
              files :=
                [⟨2, "in/p/a.sutra".toList, .written,
                    some (Path.join output "00000002.txt".toList)⟩,
                  ⟨3, "in/p/b.Sutra".toList, .skippedUnparsable, none⟩,
                  ⟨4, "in/p/c.txt".toList, .skippedNonMatchingExtension, none⟩] } ∧
      AwayFromWalk smallProject "in".toList output smallStops := by
    decide +kernel
  obtain ⟨hfree, hok, haway⟩ := hbuilds "new".toList (by decide)
  obtain ⟨hfree', hok', haway'⟩ := hbuilds "other".toList (by decide)
  have hwalk := haway'.itinerary_prepareOutput.trans haway.itinerary_prepareOutput.symm
  obtain ⟨hreport, -⟩ := build_relocated hwalk haway.outsideWalk haway'.outsideWalk hok hok'
  exact ⟨_, _, hfree, hfree', hok, hok', by decide, hreport⟩

/-- An output directory that the walk meets takes a number of its own, or a link that leads to it
counts as a directory. -/
theorem build_differs_elsewhere :
    (smallProject.leadsSomewhere "in/a".toList = false ∧
      smallProject.leadsSomewhere "new".toList = false ∧ smallProject.isDirectory "in".toList ∧
      ((ofScripts {}).build smallProject "in".toList "in/a".toList).fs.read
          "in/a/00000003.txt".toList = .ok (Text.bytes "x 1".toList) ∧
      ((ofScripts {}).build smallProject "in".toList "new".toList).fs.read
          "new/00000002.txt".toList = .ok (Text.bytes "x 1".toList) ∧
      ((ofScripts {}).build smallProject "in".toList "new".toList).result.isOk ∧
      ((ofScripts {}).build smallProject "in".toList "in/a".toList).result.map
          (BuildReport.relocate "in/a".toList "new".toList) ≠
        ((ofScripts {}).build smallProject "in".toList "new".toList).result) ∧
    (linkingProject "../../new".toList).leadsSomewhere "new".toList = false ∧
      (linkingProject "../../new".toList).leadsSomewhere "other".toList = false ∧
      ((ofScripts {}).build (linkingProject "../../new".toList) "in".toList "new".toList).result =
        .ok { encoding := {}, entriesVisited := 2 } ∧
      ((ofScripts {}).build (linkingProject "../../new".toList) "in".toList "other".toList).result =
        .ok { encoding := {}, entriesVisited := 2, skippedExtension := 1,
              files := [⟨2, "in/p/l".toList, .skippedNonMatchingExtension, none⟩] } := by
  decide +kernel

end Miner

end TokenCorpus
