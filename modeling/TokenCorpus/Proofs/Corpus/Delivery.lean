import TokenCorpus.Proofs.Corpus.Mirroring
import TokenCorpus.Proofs.Corpus.Numbering
import TokenCorpus.Proofs.Corpus.Outcomes

/-!
What a build has delivered when it succeeds.

Each document that the report names holds the encoding of its source, as both are when the build is
done. Each file that the walk comes to has a record, which says what the contents of the file are
worth.
-/

namespace TokenCorpus

open FileSystem (GrowsBy FileIn)

/-! ## Documents -/

/-- The file at a path is a script, and the document holds the encoding of its tree. -/
structure Miner.Documents (miner : Miner) (fs : FileSystem) (path document : Text) (bytes : Bytes)
    (tree : Node) : Prop where
  read_source : fs.read path = .ok bytes
  parsed : ∃ source, Utf8.decode? bytes = some source ∧ miner.parser path source = .ok tree
  read_document : fs.read document = .ok (tree.encoding miner.options.encoding).bytes

namespace Run

variable {base : FileSystem} {miner : Miner} {output : Text} {out : Location}
  {run next last : Run base}

/-- Every document that the report of a run names holds the encoding of its source. -/
def Documented (miner : Miner) (run : Run base) : Prop :=
  ∀ file ∈ run.report.files, ∀ document, file.outputPath = some document →
    ∃ bytes tree, miner.Documents run.fs file.sourcePath document bytes tree

theorem documented_take (hout : base.documentDirectory output = .ok out)
    (hrun : run.Grown (· = out)) (hdocumented : run.Documented miner) {stop : Stop}
    (h : run.take miner (.dump output) stop = .ok next) : next.Documented miner := by
  have hjob := Job.writesIn_dump hout
  have hgrow : GrowsBy (FileIn (· = out)) run.fs next.fs := take_grows hjob hrun h
  obtain ⟨verdict, hjudge, hsettle⟩ := take_eq_ok h
  intro file hfile document hdocument
  rw [files_take hjudge h] at hfile
  cases List.mem_append.mp hfile with
  | inl hold =>
    obtain ⟨bytes, tree, hsource, hparsed, hread⟩ := hdocumented file hold document hdocument
    exact ⟨bytes, tree, FileSystem.read_grows hgrow hsource, hparsed,
      FileSystem.read_grows hgrow hread⟩
  | inr hnew =>
    cases verdict with
    | directory => cases hnew
    | otherExtension =>
      rw [List.mem_singleton.mp hnew] at hdocument
      cases hdocument
    | unparsable =>
      rw [List.mem_singleton.mp hnew] at hdocument
      cases hdocument
    | accepted tree =>
      obtain ⟨name, hname, hcreate, -⟩ := writeDocument_eq_ok hsettle
      have hout' := (FileSystem.documentDirectory_grows hrun).mpr hout
      obtain ⟨_, bytes, source, -, -, hsource, hdecode, hparse⟩ := Miner.judge_eq_accepted.mp hjudge
      rw [List.mem_singleton.mp hnew] at hdocument ⊢
      have hpath : some (Path.join output name) = some document := by
        have hnumbered : documentName (run.sequence + 1) miner.options.sequenceWidth = .ok name :=
          hname
        rw [← hdocument]
        simp only [Job.document?, hnumbered]
        rfl
      cases hpath
      exact ⟨bytes, tree, FileSystem.read_grows hgrow hsource, ⟨source, hdecode, hparse⟩,
        read_document hout' hname hcreate⟩

theorem documented_foldlM_take (hout : base.documentDirectory output = .ok out)
    (hrun : run.Grown (· = out)) (hdocumented : run.Documented miner) {stops : List Stop}
    (h : stops.foldlM (take miner (.dump output)) run = .ok last) : last.Documented miner := by
  have hjob := Job.writesIn_dump hout
  have hkeeps := foldlM_keeps
    (P := fun run : Run base => run.Grown (· = out) ∧ run.Documented miner)
    (fun run stop _ next hkept htake =>
      ⟨grown_take hjob hkept.1 htake, documented_take hout hkept.1 hkept.2 htake⟩)
    ⟨hrun, hdocumented⟩ h
  exact hkeeps.2

end Run

namespace Miner

variable {miner : Miner} {fs : FileSystem} {input output : Text} {report : BuildReport}

/-- A build that succeeds has come through its agenda. -/
theorem exists_passes_of_build (h : (miner.build fs input output).result = .ok report) :
    ∃ prepared out agenda, ∃ stops : List Stop, ∃ last : Run prepared,
      prepareOutput fs output = (prepared, none) ∧
      prepared.documentDirectory output = .ok out ∧ prepared.agenda input = .ok agenda ∧
      Run.Passes miner (.dump output) (miner.opening prepared input output) agenda stops last [] ∧
      (miner.build fs input output).fs = last.fs ∧ report = last.report := by
  obtain ⟨prepared, -, hprepare, -⟩ := exists_run_of_build h
  obtain ⟨out, hout⟩ := prepareOutput_ready hprepare
  cases hlist : prepared.findDirectory input with
  | error cause =>
    rw [build_of_unlisted hprepare hlist] at h
    cases h
  | ok root =>
    have hagenda := FileSystem.agenda_of_findDirectory hlist
    obtain ⟨stops, last, hpasses, hbuild⟩ | ⟨_, _, _, _, _, -, -, hbuild⟩ :=
      build_of_agenda hprepare hagenda
    · rw [hbuild] at h ⊢
      cases h
      exact ⟨prepared, out, _, stops, last, hprepare, hout, hagenda, hpasses, rfl, rfl⟩
    · rw [hbuild] at h
      cases h

/-- What could be read before a build reads the same after it. -/
theorem read_build (h : (miner.build fs input output).result = .ok report) {path : Text}
    {content : Bytes} (hread : fs.read path = .ok content) :
    (miner.build fs input output).fs.read path = .ok content := by
  obtain ⟨prepared, out, _, stops, last, hprepare, hout, -, hpasses, hfs, -⟩ :=
    exists_passes_of_build h
  have hprepared : GrowsBy FileSystem.IsDirectory fs prepared := by
    simpa only [hprepare] using prepareOutput_grows fs output
  have hjob := Job.writesIn_dump hout
  have hstart : (miner.opening prepared input output).Grown (· = out) := GrowsBy.refl prepared
  have hgrown : GrowsBy (FileIn (· = out)) prepared last.fs :=
    Run.grown_foldlM_take hjob hstart hpasses.foldlM_take
  rw [hfs]
  exact FileSystem.read_grows hgrown (FileSystem.read_grows hprepared hread)

/-- A build that succeeds has made the documents that its report names. -/
theorem documents_of_build (h : (miner.build fs input output).result = .ok report) :
    ∀ file ∈ report.files, ∀ document, file.outputPath = some document →
      ∃ bytes tree, miner.Documents (miner.build fs input output).fs file.sourcePath document bytes
        tree := by
  obtain ⟨prepared, out, _, stops, last, -, hout, -, hpasses, hfs, rfl⟩ := exists_passes_of_build h
  have hstart : (miner.opening prepared input output).Grown (· = out) := GrowsBy.refl prepared
  have hnone : (miner.opening prepared input output).Documented miner := by
    intro file hfile
    cases hfile
  rw [hfs]
  exact Run.documented_foldlM_take hout hstart hnone hpasses.foldlM_take

end Miner

/-! ## Records -/

theorem exists_left_of_forall₂ {α β : Type} {R : α → β → Prop} {l : List α} {m : List β}
    (h : List.Forall₂ R l m) {b : β} (hb : b ∈ m) : ∃ a ∈ l, R a b := by
  induction h with
  | nil => cases hb
  | @cons a first l m hfirst _ ih =>
    cases List.mem_cons.mp hb with
    | inl heq =>
      subst heq
      exact ⟨a, List.mem_cons_self, hfirst⟩
    | inr hlater =>
      obtain ⟨a', hmem, hrel⟩ := ih hlater
      exact ⟨a', List.mem_cons_of_mem a hmem, hrel⟩

namespace FileSystem

variable {before after : FileSystem} {New : Location → FileNode → Prop}

/-- The names lead from the input directory to an entry of the walk that reads as a file with the
given contents. The last name is its own. -/
structure Holds (fs : FileSystem) (input : Text) (above : List Name) (name : Name)
    (content : Bytes) : Prop where
  shows : fs.Shows input (above ++ [name]) false
  read_eq : fs.read (Path.below input (above ++ [name])) = .ok content

theorem Holds.grows (hgrow : GrowsBy New before after) {input : Text} {above : List Name}
    {name : Name} {content : Bytes} (h : before.Holds input above name content) :
    after.Holds input above name content := by
  have hread := read_grows hgrow h.read_eq
  obtain ⟨node, hwalked, hcounts⟩ := h.shows
  refine ⟨⟨node, hwalked.grows hgrow, ?_⟩, hread⟩
  cases node with
  | file => rfl
  | directory => cases hcounts
  | link =>
    rw [countsAsDirectory, Bool.eq_false_iff, ne_eq, isDirectory_iff]
    rintro ⟨dir, hland⟩
    obtain ⟨location, hland'⟩ := read_eq_ok_iff.mp hread
    rw [hland] at hland'
    cases hland'

end FileSystem

/-- An entry that does not count as a directory has a record. -/
theorem Numbered.exists_file {fs : FileSystem} {input : Text} {trails : List Trail}
    {visited : List (Nat × Text)} {report : BuildReport}
    (h : Numbered fs input trails visited report) {names : List Name}
    (hshows : fs.Shows input names false) :
    ∃ file ∈ report.files, file.sourcePath = Path.below input names := by
  obtain ⟨node, hwalked, hcounts⟩ := hshows
  have htrail : (⟨names, node⟩ : Trail) ∈ trails := (h.complete _).mpr hwalked
  rw [← List.zipIdx_map_fst 1 trails] at htrail
  obtain ⟨⟨trail, number⟩, hmem, rfl⟩ := List.mem_map.mp htrail
  have hentry : (number, Path.below input names) ∈
      report.files.map fun file => (file.sequence, file.sourcePath) := by
    rw [h.files_eq]
    refine List.mem_map.mpr ⟨_, List.mem_filter.mpr ⟨hmem, ?_⟩, rfl⟩
    simp only [hcounts, Bool.not_false]
  obtain ⟨file, hfile, heq⟩ := List.mem_map.mp hentry
  exact ⟨file, hfile, (Prod.mk.inj heq).2⟩

/-- The stops of a walk are named as their paths end. -/
theorem Run.Passes.exists_above {base : FileSystem} {miner : Miner} {job : Job}
    {run last : Run base} {agenda rest : List Pending} {stops : List Stop} {input : Text}
    (h : Run.Passes miner job run agenda stops last rest)
    (hbelow : ∀ pending ∈ agenda, pending.LiesBelow input) :
    ∀ stop ∈ stops, ∀ name, stop.name? = some name →
      ∃ above, stop.path = Path.below input (above ++ [name]) := by
  induction h with
  | here =>
    intro stop hmem
    cases hmem
  | @visit run _ _ pending _ _ _ _ _ ih =>
    rw [List.forall_mem_cons] at hbelow ⊢
    refine ⟨fun name => hbelow.1.exists_above run.fs name, ih fun next hmem => ?_⟩
    cases List.mem_append.mp hmem with
    | inl hdeeper => exact hbelow.1.below next hdeeper
    | inr hlater => exact hbelow.2 next hlater

namespace Miner

variable {miner : Miner} {fs : FileSystem} {input output : Text} {report : BuildReport}

/-- Each file of a report is the record of a stop. -/
theorem reports_of_build (h : (miner.build fs input output).result = .ok report) :
    ∀ file ∈ report.files, ∃ stop, miner.Reports (miner.build fs input output).fs output stop file ∧
      ∀ name, stop.1.name? = some name →
        ∃ above, file.sourcePath = Path.below input (above ++ [name]) := by
  obtain ⟨prepared, out, agenda, stops, last, -, hout, hagenda, hpasses, hfs, rfl⟩ :=
    exists_passes_of_build h
  have hjob := Job.writesIn_dump hout
  have hstart : (miner.opening prepared input output).Grown (· = out) := GrowsBy.refl prepared
  obtain ⟨files, hfiles, hrecords⟩ := Run.records_foldlM_take hjob hstart hpasses.foldlM_take
  have hall : last.report.files = files := hfiles
  intro file hfile
  rw [hall] at hfile
  obtain ⟨stop, hmem, hrecord⟩ := exists_left_of_forall₂ hrecords hfile
  have hreports := reports_of_records hrecord
  rw [hfs]
  refine ⟨stop, hreports, fun name hname => ?_⟩
  rw [hreports.sourcePath_eq]
  exact hpasses.exists_above (Pending.liesBelow_agenda hagenda) stop.1
    (List.fst_mem_of_mem_zipIdx (List.mem_of_mem_filter hmem)) name hname

/-- What a build has made of a file with the given contents: a document for its tree, or nothing if
the contents are no text or the parser refuses them. -/
inductive Treated (miner : Miner) (after : FileSystem) (content : Bytes) (file : CorpusFile) :
    Prop where
  | written {source document : Text} {tree : Node} (hdecode : Utf8.decode? content = some source)
      (hparse : miner.parser file.sourcePath source = .ok tree) (hstatus : file.status = .written)
      (houtput : file.outputPath = some document)
      (hread : after.read document = .ok (tree.encoding miner.options.encoding).bytes)
  | unparsable
      (hrefused : ∀ source, Utf8.decode? content = some source →
        ∃ e, miner.parser file.sourcePath source = .error e)
      (hstatus : file.status = .skippedUnparsable)

/-- The record of a file with the right extension tells what its contents are worth. -/
theorem treated_of_build (h : (miner.build fs input output).result = .ok report)
    {above : List Name} {name : Name} (haccepts : miner.options.accepts name.text)
    {file : CorpusFile} (hfile : file ∈ report.files)
    (hpath : file.sourcePath = Path.below input (above ++ [name])) {content : Bytes}
    (hcontent : fs.read file.sourcePath = .ok content) :
    miner.Treated (miner.build fs input output).fs content file := by
  have hafter := read_build h hcontent
  obtain ⟨stop, hreports, hnamed⟩ := reports_of_build h file hfile
  rw [hreports.sourcePath_eq] at hafter
  obtain ⟨_, _, -, -, hstatus, houtput⟩ | ⟨⟨_, bytes, -, -, hread, hrefused⟩, hstatus, -⟩ |
    ⟨⟨other, hother, hignored⟩, -, -⟩ := hreports.status_eq
  · obtain ⟨bytes, tree, hread, ⟨source, hdecode, hparse⟩, hdocument⟩ :=
      documents_of_build h file hfile _ houtput
    rw [hreports.sourcePath_eq, hafter] at hread
    cases hread
    exact .written hdecode hparse hstatus houtput hdocument
  · rw [hafter] at hread
    cases hread
    rw [← hreports.sourcePath_eq] at hrefused
    exact .unparsable hrefused hstatus
  · -- A path ends in one name only, so the stop has the name that is accepted.
    obtain ⟨above', hpath'⟩ := hnamed other hother
    have hnames := Path.below_injective (hpath.symm.trans hpath')
    obtain rfl : name = other := List.singleton_injective (List.append_inj_right' hnames rfl)
    exact absurd haccepts hignored

end Miner

end TokenCorpus
