import TokenCorpus.Proofs.Corpus.Documents
import TokenCorpus.Proofs.Corpus.Log
import TokenCorpus.Proofs.Corpus.Trails
import TokenCorpus.Proofs.FileSystem.Shape

/-!
How the entries of a walk are numbered.

A build or a count that succeeds has visited each entry of the walk once, and the number of an entry
is its place in the order of the walk. So the numbers follow from the names and from what counts as a
directory, and from nothing else.
-/

namespace TokenCorpus

open FileSystem (GrowsBy FileIn)

/-- The entries of a walk have been numbered: `trails` are all of them and in order, each has been
visited under its place in that order, and the report has those that do not count as directories. -/
structure Numbered (fs : FileSystem) (input : Text) (trails : List Trail)
    (visited : List (Nat × Text)) (report : BuildReport) : Prop where
  complete : ∀ trail, trail ∈ trails ↔ fs.Walked input trail.names trail.node
  ordered : trails.Pairwise Trail.Precedes
  visited_eq : visited = (trails.zipIdx 1).map fun e => (e.2, Path.below input e.1.names)
  distinct : (visited.map Prod.snd).Nodup
  entriesVisited_eq : report.entriesVisited = trails.length
  files_eq : report.files.map (fun file => (file.sequence, file.sourcePath)) =
    ((trails.zipIdx 1).filter fun e => !fs.countsAsDirectory input e.1).map fun e =>
      (e.2, Path.below input e.1.names)

section Sights

variable {α : Type}

theorem map_zipIdx_sight (l : List α) (sight : α → Text × Bool) :
    (l.zipIdx 1).map (fun e => (e.2, (sight e.1).1)) =
      ((l.map sight).zipIdx 1).map fun e => (e.2, e.1.1) := by
  rw [List.zipIdx_map, List.map_map]
  rfl

theorem filter_zipIdx_sight (l : List α) (sight : α → Text × Bool) :
    ((l.zipIdx 1).filter fun e => !(sight e.1).2).map (fun e => (e.2, (sight e.1).1)) =
      (((l.map sight).zipIdx 1).filter (!·.1.2)).map fun e => (e.2, e.1.1) := by
  rw [List.zipIdx_map, List.filter_map, List.map_map]
  rfl

/-- Entries in order have different paths. -/
theorem distinct_paths {trails : List Trail} {input : Text}
    (h : trails.Pairwise Trail.Precedes) :
    ((trails.zipIdx 1).map fun e => Path.below input e.1.names).Nodup := by
  have hpaths : (trails.map fun trail => Path.below input trail.names).Nodup := by
    refine List.pairwise_map.mpr (h.imp ?_)
    intro a b hlt hpath
    rw [Trail.Precedes, Path.below_injective hpath] at hlt
    exact List.lt_irrefl _ hlt
  rw [← List.zipIdx_map_fst 1 trails, List.map_map] at hpaths
  exact hpaths

end Sights

namespace Miner

theorem isLost_of_judge {miner : Miner} {fs : FileSystem} {stop : Stop} {verdict : Verdict}
    (h : miner.judge fs stop = .ok verdict) : stop.isLost = false := by
  cases stop with
  | lost => simp [judge] at h
  | _ => rfl

theorem Records.entry_eq {miner : Miner} {job : Job} {fs : FileSystem} {stop : Stop × Nat}
    {file : CorpusFile} (h : miner.Records job fs stop file) :
    (stop.2, stop.1.path) = (file.sequence, file.sourcePath) := by
  obtain ⟨verdict, -, hrecord, -⟩ := h
  cases verdict with
  | directory => simp [Verdict.record?] at hrecord
  | _ => cases hrecord; rfl

end Miner

namespace Run

variable {base : FileSystem} {Dir : Location → Prop} {miner : Miner} {job : Job} {input : Text}

theorem found_foldlM_take {stops : List Stop} {run last : Run base}
    (h : stops.foldlM (take miner job) run = .ok last) : ∀ stop ∈ stops, stop.isLost = false := by
  induction stops generalizing run with
  | nil => simp
  | cons stop stops ih =>
    obtain ⟨next, htake, h⟩ := exists_of_foldlM_cons h
    obtain ⟨verdict, hjudge, -⟩ := take_eq_ok htake
    exact List.forall_mem_cons.mpr ⟨Miner.isLost_of_judge hjudge, ih h⟩

/-- A run that comes through its itinerary has numbered the entries of the walk. -/
theorem numbered_foldlM_take (hjob : job.WritesIn base Dir) {stops : List Stop} {log : List Event}
    {encoding : EncodingConfig} {last : Run base} (hlog : log.filterMap Event.visited? = [])
    (hstops : base.itinerary input = .ok stops)
    (h : stops.foldlM (take miner job) (Run.start base encoding log) = .ok last) :
    ∃ trails, Numbered base input trails (last.log.filterMap Event.visited?) last.report := by
  have hstart : (Run.start base encoding log).Grown Dir := GrowsBy.refl base
  obtain ⟨events, hevents, htells⟩ := log_foldlM_take hjob hstart h
  obtain ⟨files, hfiles, hrecords⟩ := records_foldlM_take hjob hstart h
  obtain ⟨trails, hwalked, hsights⟩ := FileSystem.sight_itinerary hstops (found_foldlM_take h)
  have hvisited : last.log.filterMap Event.visited? =
      (trails.zipIdx 1).map fun e => (e.2, Path.below input e.1.names) := by
    rw [hevents, List.filterMap_append]
    have hlog' : (Run.start base encoding log).log.filterMap Event.visited? = [] := hlog
    rw [hlog', List.nil_append, Miner.visited_of_tells htells]
    exact (map_zipIdx_sight stops Stop.sight).trans
      (hsights ▸ (map_zipIdx_sight trails (base.sight input)).symm)
  refine ⟨trails, fun trail => FileSystem.mem_walked_iff hwalked,
    FileSystem.walked_pairwise hwalked, hvisited, ?_, ?_, ?_⟩
  · rw [hvisited, List.map_map]
    exact distinct_paths (FileSystem.walked_pairwise hwalked)
  · have hlength := congrArg List.length hsights
    rw [List.length_map, List.length_map] at hlength
    rw [← hlength]
    exact (sequence_foldlM_take h).trans (Nat.zero_add _)
  · have hfiles' : last.report.files = files := hfiles
    have hentries : files.map (fun file => (file.sequence, file.sourcePath)) =
        ((stops.zipIdx 1).filter (!·.1.isDirectory)).map fun stop => (stop.2, stop.1.path) := by
      have hall := List.forall₂_map_right_iff.mpr (List.forall₂_map_left_iff.mpr
        (hrecords.imp fun _ _ => Miner.Records.entry_eq))
      rw [List.forall₂_eq_eq_eq] at hall
      exact hall.symm
    rw [hfiles', hentries]
    exact (filter_zipIdx_sight stops Stop.sight).trans
      (hsights ▸ (filter_zipIdx_sight trails (base.sight input)).symm)

end Run

namespace FileSystem

variable {fs other : FileSystem} {input : Text}

/-- Names lead to an entry of the walk, which counts as a directory or does not. -/
def Shows (fs : FileSystem) (input : Text) (names : List Name) (directory : Bool) : Prop :=
  ∃ node, fs.Walked input names node ∧ fs.countsAsDirectory input ⟨names, node⟩ = directory

/-- The walks over two file systems have entries with the same names, and those with the same names
both count as directories or both do not. -/
def LooksAlike (fs other : FileSystem) (input : Text) : Prop :=
  ∀ names directory, fs.Shows input names directory ↔ other.Shows input names directory

theorem SameShape.below (h : fs.SameShape other) {dir : Location} {names : List Name}
    {node : FileNode} (hbelow : fs.Below dir names node) :
    ∃ node', other.Below dir names node' ∧ node'.refill [] = node.refill [] := by
  induction hbelow with
  | entry hget =>
    obtain ⟨node', hget', heq⟩ := h.exists_get? hget
    exact ⟨node', .entry hget', heq⟩
  | deeper hget _ ih =>
    obtain ⟨node', hbelow, heq⟩ := ih
    exact ⟨node', .deeper (h.get?_of_not_file hget (by simp)) hbelow, heq⟩

theorem SameShape.walked (h : fs.SameShape other) {names : List Name} {node : FileNode}
    (hwalked : fs.Walked input names node) :
    ∃ node', other.Walked input names node' ∧ node'.refill [] = node.refill [] := by
  cases hwalked with
  | entry hroot hget =>
    obtain ⟨node', hget', heq⟩ := h.exists_get? hget
    exact ⟨node', .entry (h.findDirectory_eq_ok hroot) hget', heq⟩
  | inside hroot hget hbelow =>
    obtain ⟨node', hbelow', heq⟩ := h.below hbelow
    exact ⟨node', .inside (h.findDirectory_eq_ok hroot) (h.get?_of_not_file hget (by simp)) hbelow',
      heq⟩
  | behind hroot hget hdir hbelow =>
    obtain ⟨node', hbelow', heq⟩ := h.below hbelow
    exact ⟨node', .behind (h.findDirectory_eq_ok hroot) (h.get?_of_not_file hget (by simp))
      (h.findDirectory_eq_ok hdir) hbelow', heq⟩

theorem SameShape.countsAsDirectory_eq (h : fs.SameShape other) {names : List Name}
    {node node' : FileNode} (heq : node'.refill [] = node.refill []) :
    other.countsAsDirectory input ⟨names, node'⟩ = fs.countsAsDirectory input ⟨names, node⟩ := by
  cases node <;> cases node' <;> simp_all [FileNode.refill, countsAsDirectory, h.isDirectory_eq]

/-- The contents of files do not show. -/
theorem SameShape.looksAlike (h : fs.SameShape other) (input : Text) :
    fs.LooksAlike other input := by
  have himp : ∀ {a b : FileSystem}, a.SameShape b → ∀ {names directory},
      a.Shows input names directory → b.Shows input names directory := by
    rintro a b hshape names directory ⟨node, hwalked, hcounts⟩
    obtain ⟨node', hwalked', heq⟩ := hshape.walked hwalked
    exact ⟨node', hwalked', (hshape.countsAsDirectory_eq heq).trans hcounts⟩
  exact fun _ _ => ⟨himp h, himp h.symm⟩

end FileSystem

namespace Numbered

variable {fs other : FileSystem} {input : Text} {trails trails' : List Trail}
  {visited visited' : List (Nat × Text)} {report report' : BuildReport}

/-- The names of the entries in order, each with whether the entry counts as a directory. -/
def outline (fs : FileSystem) (input : Text) (trails : List Trail) : List (List Name × Bool) :=
  trails.map fun trail => (trail.names, fs.countsAsDirectory input trail)

theorem mem_outline_iff (h : Numbered fs input trails visited report) {names : List Name}
    {directory : Bool} :
    (names, directory) ∈ outline fs input trails ↔ fs.Shows input names directory := by
  rw [outline, List.mem_map]
  constructor
  · rintro ⟨trail, hmem, heq⟩
    cases heq
    exact ⟨trail.node, (h.complete trail).mp hmem, rfl⟩
  · rintro ⟨node, hwalked, rfl⟩
    exact ⟨⟨names, node⟩, (h.complete _).mpr hwalked, rfl⟩

theorem outline_pairwise (h : Numbered fs input trails visited report) :
    (outline fs input trails).Pairwise fun a b => rank a.1 < rank b.1 :=
  List.pairwise_map.mpr h.ordered

/-- Walks that look alike have one outline. -/
theorem outline_eq (hlooks : fs.LooksAlike other input)
    (h : Numbered fs input trails visited report)
    (h' : Numbered other input trails' visited' report') :
    outline fs input trails = outline other input trails' := by
  refine eq_of_increasing (fun entry => rank entry.1) List.lt_irrefl List.lt_trans
    h.outline_pairwise h'.outline_pairwise ?_
  rintro ⟨names, directory⟩
  rw [h.mem_outline_iff, h'.mem_outline_iff]
  exact hlooks names directory

theorem visited_eq_outline (h : Numbered fs input trails visited report) :
    visited = ((outline fs input trails).zipIdx 1).map fun e => (e.2, Path.below input e.1.1) := by
  rw [h.visited_eq, outline, List.zipIdx_map, List.map_map]
  rfl

theorem files_eq_outline (h : Numbered fs input trails visited report) :
    report.files.map (fun file => (file.sequence, file.sourcePath)) =
      (((outline fs input trails).zipIdx 1).filter (!·.1.2)).map fun e =>
        (e.2, Path.below input e.1.1) := by
  rw [h.files_eq, outline, List.zipIdx_map, List.filter_map, List.map_map]
  rfl

end Numbered

namespace Miner

variable {miner : Miner} {fs : FileSystem} {input output : Text}

/-- A count or a build succeeds: the file system that it walks, the entries that it tells of, and its
report. A build walks the file system as it is once there is a directory for documents, and it does
not enter that directory. -/
inductive Succeeds (miner : Miner) (fs : FileSystem) (input : Text) :
    FileSystem → List (Nat × Text) → BuildReport → Prop where
  | count {counts : TokenCounts} {report : BuildReport}
      (h : (miner.countTokens fs input).result = .ok (counts, report)) :
      Succeeds miner fs input fs (miner.countTokens fs input).visited report
  | build {output : Text} {report : BuildReport}
      (houtside : OutsideWalk (prepareOutput fs output).1 input output)
      (h : (miner.build fs input output).result = .ok report) :
      Succeeds miner fs input (prepareOutput fs output).1 (miner.build fs input output).visited
        report

/-- What succeeds has numbered the entries of its walk. -/
theorem Succeeds.numbered {walked : FileSystem} {visited : List (Nat × Text)} {report : BuildReport}
    (h : miner.Succeeds fs input walked visited report) :
    ∃ trails, Numbered walked input trails visited report := by
  cases h with
  | count h =>
    obtain ⟨stops, last, hstops, hfold, hcount, -, rfl⟩ := countTokens_eq_ok h
    have hjob : Job.WritesIn fs (fun _ => False) .tally := trivial
    rw [hcount, Outcome.visited_concat rfl]
    exact Run.numbered_foldlM_take hjob rfl hstops hfold
  | @build output _ houtside h =>
    obtain ⟨prepared, last, hprepare, hall, hbuild, rfl⟩ := exists_run_of_build h
    obtain ⟨out, hout⟩ := prepareOutput_ready hprepare
    rw [hprepare] at houtside ⊢
    have hjob := Job.writesIn_dump hout
    obtain ⟨stops, hstops, hfold⟩ := Run.all_eq_ok hjob (houtside.not_entered hout) rfl hall
    rw [hbuild, Outcome.visited_concat rfl]
    exact Run.numbered_foldlM_take hjob rfl hstops hfold

/-- A build or a count that succeeds has visited each entry of its walk once and in order, under the
numbers from one on. Where two of them walk over entries with the same names, of which the same count
as directories, all numbers are the same; the contents of files do not matter. -/
theorem numbered_of_succeeds {walked : FileSystem} {visited : List (Nat × Text)}
    {report : BuildReport} (h : miner.Succeeds fs input walked visited report) :
    (∃ trails, Numbered walked input trails visited report) ∧
      ∀ miner' fs' walked' visited' report', Succeeds miner' fs' input walked' visited' report' →
        (walked.SameShape walked' → walked.LooksAlike walked' input) ∧
        (walked.LooksAlike walked' input →
          visited = visited' ∧ report.entriesVisited = report'.entriesVisited ∧
          report.files.map (fun file => (file.sequence, file.sourcePath)) =
            report'.files.map fun file => (file.sequence, file.sourcePath)) := by
  obtain ⟨trails, hnumbered⟩ := h.numbered
  refine ⟨⟨trails, hnumbered⟩, ?_⟩
  intro miner' fs' walked' visited' report' h'
  obtain ⟨trails', hnumbered'⟩ := h'.numbered
  refine ⟨fun hshape => hshape.looksAlike input, fun hlooks => ?_⟩
  have houtline := Numbered.outline_eq hlooks hnumbered hnumbered'
  refine ⟨?_, ?_, ?_⟩
  · rw [hnumbered.visited_eq_outline, houtline, ← hnumbered'.visited_eq_outline]
  · have hlength := congrArg List.length houtline
    rw [Numbered.outline, Numbered.outline, List.length_map, List.length_map] at hlength
    rw [hnumbered.entriesVisited_eq, hlength, hnumbered'.entriesVisited_eq]
  · rw [hnumbered.files_eq_outline, houtline, ← hnumbered'.files_eq_outline]

/-- Counting and building the same project give the same numbers. -/
theorem numbered_of_succeeds_smallProject :
    ∃ trails counts report,
      ((ofScripts {}).countTokens smallProject "in".toList).result = .ok (counts, report) ∧
      Numbered smallProject "in".toList trails
        ((ofScripts {}).countTokens smallProject "in".toList).visited report ∧
      ((ofScripts {}).countTokens smallProject "in".toList).visited =
        ((ofScripts {}).build smallProject "in".toList "out".toList).visited := by
  have houtside :
      OutsideWalk (prepareOutput smallProject "out".toList).1 "in".toList "out".toList := by
    decide +kernel
  have hcounts : ((ofScripts {}).countTokens smallProject "in".toList).result.isOk := by
    decide +kernel
  have hbuilds : ((ofScripts {}).build smallProject "in".toList "out".toList).result.isOk := by
    decide +kernel
  have hprepare : prepareOutput smallProject "out".toList = (smallProject, none) :=
    prepareOutput_of_isDirectory (by decide +kernel)
  have hshape : smallProject.SameShape (prepareOutput smallProject "out".toList).1 := by
    rw [hprepare]
    exact ⟨rfl, fun _ => rfl⟩
  have hvalue : ∀ {α : Type} {result : Except (Abort BuildError) α}, result.isOk →
      ∃ value, result = .ok value := by
    rintro α (e | value) hok
    · simp [Except.isOk, Except.toBool] at hok
    · exact ⟨value, rfl⟩
  obtain ⟨⟨counts, report⟩, hcount⟩ := hvalue hcounts
  obtain ⟨report', hbuild⟩ := hvalue hbuilds
  obtain ⟨⟨trails, hnumbered⟩, hothers⟩ := numbered_of_succeeds (.count hcount)
  obtain ⟨hlooks, hsame⟩ := hothers _ _ _ _ _ (.build houtside hbuild)
  exact ⟨trails, counts, report, hcount, hnumbered, (hsame (hlooks hshape)).1⟩

def projectName : Name := projectDir.head (List.cons_ne_nil _ _)

def linkName : Name := ⟨"l".toList, by decide⟩

/-- A project that holds nothing but a link. -/
def linkingProject (target : Text) : FileSystem := projectOf [(linkName, .link target)] (by simp)

/-- A path of the input directory with so many slashes behind it that no request can pass on the path
of an entry two levels below. -/
def slashedInput : Text := "in".toList ++ List.replicate 4091 '/'

theorem walked_linkName {input target : Text}
    (h : (linkingProject target).findDirectory input = .ok inputDir) :
    (linkingProject target).Walked input [projectName, linkName] (.link target) :=
  .inside h rfl (.entry rfl)

/-- Whether a link leads to a directory is settled when the walk comes to it, under its own path. It
may lead to the directory that the build has made for documents; and where its path is too long, it
leads nowhere. -/
theorem links_counted_otherwise :
    ((linkingProject "../../new".toList).Walked "in".toList [projectName, linkName]
        (.link "../../new".toList) ∧
      OutsideWalk (prepareOutput (linkingProject "../../new".toList) "new".toList).1 "in".toList
        "new".toList ∧
      (linkingProject "../../new".toList).isDirectory "in/p/l".toList = false ∧
      ((ofScripts {}).build (linkingProject "../../new".toList) "in".toList "new".toList).result =
        .ok { encoding := {}, entriesVisited := 2 }) ∧
    (linkingProject ".".toList).Walked slashedInput [projectName, linkName] (.link ".".toList) ∧
      (linkingProject ".".toList).isDirectory "in/p/l".toList = true ∧
      (((ofScripts {}).countTokens (linkingProject ".".toList) slashedInput).result.map fun counted =>
        counted.2.files.map (·.sequence)) = .ok [2] := by
  refine ⟨⟨walked_linkName (by decide +kernel), ?_⟩, walked_linkName (by decide +kernel), ?_⟩
  · decide +kernel
  · decide +kernel

end Miner

end TokenCorpus
