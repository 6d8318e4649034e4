import TokenCorpus.Proofs.Encoding.Pieces
import TokenCorpus.Proofs.Text.Words
import TokenCorpus.Proofs.Vocabulary.Counts
import TokenCorpus.Proofs.Corpus.Documents

/-!
Counting and dumping agree.

The two runs stay in step: they judge each stop alike, because the only difference between their file
systems is the documents, and no stop leads through one of these.
-/

namespace TokenCorpus

open FileSystem (GrowsBy FileIn)

/-! ## The words of a document -/

theorem TokenCounts.addAll_append (counts : TokenCounts) (a b : List Text) :
    counts.addAll (a ++ b) = (counts.addAll a).addAll b := List.foldl_append

theorem Run.countTokens_eq (counts : TokenCounts) (encoding : EncodingConfig) (tree : Node) :
    countTokens counts encoding tree =
      counts.addAll ((tree.tokenList encoding).flatMap Text.words) := by
  rw [countTokens, Node.forTokens_eq_forM]
  induction tree.tokenList encoding generalizing counts with
  | nil => rfl
  | cons token tokens ih =>
    rw [List.forM_cons, List.flatMap_cons, TokenCounts.addAll_append]
    exact ih (counts.addAll token.words)

/-- Counting a tree counts the words of its flat document. -/
theorem Run.get_countTokens {encoding : EncodingConfig} (hmode : encoding.mode = .flat)
    (counts : TokenCounts) (tree : Node) (token : Text) :
    (countTokens counts encoding tree).get token =
      counts.get token + (tree.encoding encoding).words.count token := by
  rw [countTokens_eq, TokenCounts.get_addAll, Node.encoding_flat hmode, Text.words_spaced]

/-! ## Reports that agree -/

/-- The record of a document and the record of a count are of the same file with the same fate. -/
structure CorpusFile.AgreesWith (written counted : CorpusFile) : Prop where
  sequence_eq : written.sequence = counted.sequence
  sourcePath_eq : written.sourcePath = counted.sourcePath
  status_eq :
    (written.status = .written ∧ counted.status = .counted) ∨
    (written.status = .skippedUnparsable ∧ counted.status = .skippedUnparsable) ∨
    (written.status = .skippedNonMatchingExtension ∧
      counted.status = .skippedNonMatchingExtension)
  outputPath_eq : counted.outputPath = none

/-- The report of a dump and the report of a count tell the same. -/
structure BuildReport.AgreesWith (dump tally : BuildReport) : Prop where
  entriesVisited_eq : dump.entriesVisited = tally.entriesVisited
  skippedUnparsable_eq : dump.skippedUnparsable = tally.skippedUnparsable
  skippedExtension_eq : dump.skippedExtension = tally.skippedExtension
  written_eq : dump.written = tally.counted
  files_agree : List.Forall₂ CorpusFile.AgreesWith dump.files tally.files

namespace BuildReport

theorem AgreesWith.visit {dump tally : BuildReport} (h : dump.AgreesWith tally) :
    dump.visit.AgreesWith tally.visit :=
  ⟨congrArg (· + 1) h.entriesVisited_eq, h.skippedUnparsable_eq, h.skippedExtension_eq,
    h.written_eq, h.files_agree⟩

theorem AgreesWith.push {dump tally : BuildReport} (h : dump.AgreesWith tally)
    {written counted : CorpusFile} (hfile : written.AgreesWith counted) :
    (dump.push written).AgreesWith (tally.push counted) := by
  have hfiles : List.Forall₂ CorpusFile.AgreesWith (dump.push written).files
      (tally.push counted).files := by
    rw [files_push, files_push]
    exact List.rel_append h.files_agree (.cons hfile .nil)
  obtain ⟨hentries, hunparsable, hextension, hwritten, -⟩ := h
  obtain ⟨hstatus, hstatus'⟩ | ⟨hstatus, hstatus'⟩ | ⟨hstatus, hstatus'⟩ := hfile.status_eq
  · refine ⟨?_, ?_, ?_, ?_, hfiles⟩ <;> simp_all [BuildReport.push, BuildReport.tally]
  · refine ⟨?_, ?_, ?_, ?_, hfiles⟩ <;> simp_all [BuildReport.push, BuildReport.tally]
  · refine ⟨?_, ?_, ?_, ?_, hfiles⟩ <;> simp_all [BuildReport.push, BuildReport.tally]

end BuildReport

/-! ## Runs in step -/

namespace Run

variable {fs : FileSystem} {miner : Miner} {output : Text} {out : Location} {Taken : Nat → Prop}

/-- A dump and a count that have come through the same stops. Only the documents with the numbers
`Taken` are in the directory for documents, and the counts are those of the words in them. -/
structure InStep (miner : Miner) (out : Location) (Taken : Nat → Prop) (dump tally : Run fs) :
    Prop where
  grown : dump.Grown (· = out)
  fs_eq : tally.fs = fs
  reports_agree : dump.report.AgreesWith tally.report
  taken : ∀ name, dump.fs.get? (name :: out) ≠ none →
    ∃ i ≤ dump.sequence, Taken i ∧
      documentName i miner.options.sequenceWidth = .ok (Name.text name)
  words_counted : ∃ texts,
    List.Forall₂ (fun path text => dump.fs.read path = .ok (Text.bytes text))
      dump.report.documents texts ∧
    ∀ token, tally.counts.get token = (texts.flatMap Text.words).count token

/-- No document written so far is where the path of the stop makes the file system look. -/
def KeepsClear (miner : Miner) (fs : FileSystem) (out : Location) (Taken : Nat → Prop)
    (stop : Stop) (sequence : Nat) : Prop :=
  ∀ i < sequence, Taken i → ∀ name,
    documentName i miner.options.sequenceWidth = .ok (Name.text name) →
      name :: out ∉ fs.lookedAt stop.path

/-- Two runs in step judge a stop alike. -/
theorem InStep.judge_eq {dump tally : Run fs} (h : InStep miner out Taken dump tally)
    {stop : Stop} (hclear : KeepsClear miner fs out Taken stop (dump.sequence + 1)) :
    miner.judge dump.fs stop = miner.judge fs stop := by
  apply Miner.judge_congr
  refine FileSystem.land_congr h.grown.home_eq ?_
  intro location hlooked
  cases hget : dump.fs.get? location with
  | none =>
    cases hbefore : fs.get? location with
    | none => rfl
    | some node =>
      rw [h.grown.get?_of_some hbefore] at hget
      simp at hget
  | some node =>
    obtain hold | ⟨-, name, dir, content, rfl, rfl, -⟩ := h.grown.get?_cases hget
    · exact hold.symm
    · obtain ⟨i, hi, htaken, hname⟩ := h.taken name (by simp [hget])
      exact absurd hlooked (hclear i (Nat.lt_succ_of_le hi) htaken name hname)

/-- Runs stay in step over a stop from which no document comes. -/
theorem InStep.of_push {dump tally dump' tally' : Run fs} (h : InStep miner out Taken dump tally)
    (hfs : dump'.fs = dump.fs) (hfs' : tally'.fs = tally.fs) (hcounts : tally'.counts = tally.counts)
    (hsequence : dump'.sequence = dump.sequence + 1)
    (hagree : dump'.report.AgreesWith tally'.report)
    (hdocuments : dump'.report.documents = dump.report.documents) :
    InStep miner out Taken dump' tally' := by
  refine ⟨?_, hfs'.trans h.fs_eq, hagree, ?_, ?_⟩
  · rw [Grown, hfs]
    exact h.grown
  · intro name hname
    rw [hfs] at hname
    obtain ⟨i, hi, htaken⟩ := h.taken name hname
    exact ⟨i, by omega, htaken⟩
  · rw [hfs, hcounts, hdocuments]
    exact h.words_counted

/-- What a document needs to be written: a name for its number that a directory entry can have, and
a path that is not too long. -/
structure Writable (options : BuildOptions) (output : Text) (sequence : Nat) : Prop where
  fits : fitsWidth sequence options.sequenceWidth
  width_le : options.sequenceWidth ≤ 251
  short : ∀ name, documentName sequence options.sequenceWidth = .ok name →
    ¬ Path.isTooLong (Path.join output name)

theorem Writable.exists_name {options : BuildOptions} {sequence : Nat} (hpos : 0 < sequence)
    (h : Writable options output sequence) :
    ∃ name, documentName sequence options.sequenceWidth = .ok (Name.text name) ∧
      ¬ Path.isTooLong (Path.join output (Name.text name)) := by
  have hwide : options.sequenceWidth ≤ maxSequenceWidth := Nat.le_trans h.width_le (by decide)
  have hname := documentName_eq_ok_iff.mpr ⟨h.fits, hwide, rfl⟩
  have hbytes :
      Text.byteLength (zeroPadded sequence options.sequenceWidth ++ ".txt".toList) ≤ 255 := by
    rw [byteLength_documentName hpos hname]
    have hle := h.width_le
    omega
  exact ⟨⟨_, (valid_documentName_iff hname).mpr hbytes⟩, hname, h.short _ hname⟩

/-- Runs stay in step over a script: one writes its document, the other counts the words in it. -/
theorem InStep.of_accepted {dump tally : Run fs} (h : InStep miner out Taken dump tally)
    (hmode : miner.options.encoding.mode = .flat) (hout : fs.documentDirectory output = .ok out)
    (htaken : Taken (dump.sequence + 1))
    (hwritable : Writable miner.options output (dump.sequence + 1)) (path : Text) (tree : Node) :
    ∃ dump' tally', dump.visit.accept (.dump output) miner.options path tree = .ok dump' ∧
      tally.visit.accept .tally miner.options path tree = .ok tally' ∧
      InStep miner out Taken dump' tally' := by
  obtain ⟨name, hname, hshort⟩ := hwritable.exists_name (Nat.succ_pos _)
  have hfree : dump.fs.get? (name :: out) = none := by
    by_contra hthere
    obtain ⟨i, hi, -, hi'⟩ := h.taken name hthere
    have heq := documentName_injective hi' hname
    omega
  have hout' := (FileSystem.documentDirectory_grows h.grown).mpr hout
  obtain ⟨isDirectory, isFree, hcreate⟩ := createFile_document_of_free
    (tree.encoding miner.options.encoding).bytes hout' hname hshort hfree
  obtain ⟨dump', hdump, hfs, hreport, -⟩ :=
    writeDocument_of_createFile dump.visit path hname hcreate
  have hgrow : GrowsBy (FileIn (· = out)) dump.fs dump'.fs := by
    rw [hfs]
    exact GrowsBy.insert dump.fs isDirectory isFree ⟨_, out, _, rfl, rfl, rfl⟩
  have hsequence : dump'.sequence = dump.sequence + 1 := by
    rw [sequence, hreport]
    exact BuildReport.entriesVisited_push _ _
  refine ⟨dump', _, hdump, rfl, h.grown.trans hgrow, h.fs_eq, ?_, ?_, ?_⟩
  · rw [hreport]
    refine h.reports_agree.visit.push ⟨?_, rfl, Or.inl ⟨rfl, rfl⟩, rfl⟩
    exact congrArg (· + 1) h.reports_agree.entriesVisited_eq
  · intro other hother
    by_cases heq : other = name
    · rw [heq]
      exact ⟨dump.sequence + 1, by omega, htaken, hname⟩
    · have hne : other :: out ≠ name :: out := by simpa using heq
      have hold : dump.fs.get? (other :: out) ≠ none := by
        rwa [hfs, FileSystem.get?_insert_of_ne _ _ _ _ hne] at hother
      obtain ⟨i, hi, htaken'⟩ := h.taken other hold
      exact ⟨i, by omega, htaken'⟩
  · obtain ⟨texts, hread, hcounts⟩ := h.words_counted
    refine ⟨texts ++ [tree.encoding miner.options.encoding], ?_, ?_⟩
    · rw [hreport, BuildReport.documents_push]
      refine List.rel_append ?_ (.cons ?_ .nil)
      · exact hread.imp fun _ _ hread => FileSystem.read_grows hgrow hread
      · rw [hfs]
        exact read_document hout' hname hcreate
    · intro token
      have hcount := get_countTokens hmode tally.counts tree token
      rw [hcounts] at hcount
      rw [List.flatMap_append, List.count_append, List.flatMap_singleton]
      exact hcount

/-- What two runs in step need to stay so over the stop with the given number. -/
structure Passable (miner : Miner) (fs : FileSystem) (output : Text) (out : Location)
    (Taken : Nat → Prop) (stop : Stop) (sequence : Nat) : Prop where
  clear : KeepsClear miner fs out Taken stop sequence
  writable : Writable miner.options output sequence
  taken : ∀ tree, miner.judge fs stop = .ok (.accepted tree) → Taken sequence

/-- Two runs in step take a stop alike: they end with the same error or stay in step. -/
theorem InStep.take {dump tally : Run fs} (h : InStep miner out Taken dump tally)
    (hmode : miner.options.encoding.mode = .flat) (hout : fs.documentDirectory output = .ok out)
    {stop : Stop} (hstop : Passable miner fs output out Taken stop (dump.sequence + 1)) :
    (∃ e failure failure', miner.judge fs stop = .error e ∧
      dump.take miner (.dump output) stop = .error failure ∧ failure.cause = .raised e ∧
      tally.take miner .tally stop = .error failure' ∧ failure'.cause = .raised e) ∨
    ∃ verdict dump' tally', miner.judge fs stop = .ok verdict ∧
      dump.take miner (.dump output) stop = .ok dump' ∧
      tally.take miner .tally stop = .ok tally' ∧ InStep miner out Taken dump' tally' := by
  have hjudge := h.judge_eq hstop.clear
  have hvisit := h.reports_agree.visit
  have hsequence : dump.visit.sequence = tally.visit.sequence := hvisit.entriesVisited_eq
  rw [Run.take, Run.take, hjudge, h.fs_eq]
  cases hverdict : miner.judge fs stop with
  | error e => exact Or.inl ⟨e, _, _, rfl, rfl, rfl, rfl, rfl⟩
  | ok verdict =>
    right
    cases verdict with
    | directory =>
      exact ⟨_, _, _, rfl, rfl, rfl, h.of_push rfl rfl rfl rfl hvisit rfl⟩
    | otherExtension =>
      refine ⟨_, _, _, rfl, rfl, rfl, h.of_push rfl rfl rfl ?_ ?_ ?_⟩
      · exact BuildReport.entriesVisited_push _ _
      · exact hvisit.push ⟨hsequence, rfl, Or.inr (Or.inr ⟨rfl, rfl⟩), rfl⟩
      · exact (BuildReport.documents_push _ _).trans (List.append_nil _)
    | unparsable e =>
      refine ⟨_, _, _, rfl, rfl, rfl, h.of_push rfl rfl rfl ?_ ?_ ?_⟩
      · exact BuildReport.entriesVisited_push _ _
      · exact hvisit.push ⟨hsequence, rfl, Or.inr (Or.inl ⟨rfl, rfl⟩), rfl⟩
      · exact (BuildReport.documents_push _ _).trans (List.append_nil _)
    | accepted tree =>
      obtain ⟨dump', tally', hdump, htally, hnext⟩ :=
        h.of_accepted hmode hout (hstop.taken tree hverdict) hstop.writable stop.path tree
      exact ⟨_, dump', tally', rfl, hdump, htally, hnext⟩

end Run

namespace Miner

/-- The stops to which a run comes: all up to the first that ends it. -/
def visited (miner : Miner) (fs : FileSystem) : List Stop → List Stop
  | [] => []
  | stop :: stops =>
    match miner.judge fs stop with
    | .error _ => [stop]
    | .ok _ => stop :: visited miner fs stops

end Miner

namespace Run

variable {fs : FileSystem} {miner : Miner} {output : Text} {out : Location} {Taken : Nat → Prop}

/-- Two runs in step end with the same error or come through all stops in step. -/
theorem InStep.foldlM_take (hmode : miner.options.encoding.mode = .flat)
    (hout : fs.documentDirectory output = .ok out) {stops : List Stop} {dump tally : Run fs}
    (h : InStep miner out Taken dump tally)
    (hstops : ∀ stop ∈ (miner.visited fs stops).zipIdx (dump.sequence + 1),
      Passable miner fs output out Taken stop.1 stop.2) :
    (∃ e failure failure',
      stops.foldlM (Run.take miner (.dump output)) dump = .error failure ∧
      failure.cause = .raised e ∧
      stops.foldlM (Run.take miner .tally) tally = .error failure' ∧
      failure'.cause = .raised e) ∨
    ∃ dump' tally', stops.foldlM (Run.take miner (.dump output)) dump = .ok dump' ∧
      stops.foldlM (Run.take miner .tally) tally = .ok tally' ∧
      InStep miner out Taken dump' tally' := by
  induction stops generalizing dump tally with
  | nil => exact Or.inr ⟨dump, tally, rfl, rfl, h⟩
  | cons stop stops ih =>
    have hfirst : Passable miner fs output out Taken stop (dump.sequence + 1) := by
      refine hstops (stop, dump.sequence + 1) ?_
      rw [Miner.visited]
      cases miner.judge fs stop with
      | error e => simp
      | ok verdict => simp
    rw [List.foldlM_cons, List.foldlM_cons]
    obtain ⟨e, failure, failure', -, hdump, he, htally, he'⟩ |
      ⟨verdict, dump', tally', hverdict, hdump, htally, hnext⟩ := h.take hmode hout hfirst
    · rw [hdump, htally]
      exact Or.inl ⟨e, failure, failure', rfl, he, rfl, he'⟩
    · rw [hdump, htally]
      refine ih hnext ?_
      rw [Miner.visited, hverdict] at hstops
      rw [sequence_take hdump]
      intro later hlater
      exact hstops later (List.mem_cons_of_mem _ hlater)

end Run

namespace Miner

variable {miner : Miner} {fs : FileSystem} {input output : Text} {out : Location}

/-- The entries to which a run over an input directory comes. -/
def visits (miner : Miner) (fs : FileSystem) (input : Text) : List Stop :=
  match fs.itinerary input with
  | .ok stops => miner.visited fs stops
  | .error _ => []

/-- No visited entry has a path that leads through the place for the document of a script visited
before. -/
def KeepsClear (miner : Miner) (fs : FileSystem) (input : Text) (out : Location) : Prop :=
  ∀ stop ∈ (miner.visits fs input).zipIdx 1, ∀ earlier ∈ (miner.visits fs input).zipIdx 1,
    earlier.2 < stop.2 → ∀ tree name, miner.Accepts fs earlier.1 tree →
      documentName earlier.2 miner.options.sequenceWidth = .ok (Name.text name) →
        name :: out ∉ fs.lookedAt stop.1.path

/-- Both runs of the comparison, from the file system on which they begin. -/
theorem runs_agree (hmode : miner.options.encoding.mode = .flat)
    (hout : fs.documentDirectory output = .ok out) (hempty : fs.names out = [])
    (houtside : OutsideWalk fs input output)
    (hwritable : ∀ i, 0 < i → i ≤ (miner.visits fs input).length →
      Run.Writable miner.options output i)
    (hclear : miner.KeepsClear fs input out) (log log' : List Event) :
    (∃ e failure failure',
      (Run.start fs miner.options.encoding log).all miner (.dump output) input = .error failure ∧
      failure.cause = .raised e ∧
      (Run.start fs miner.options.encoding log').all miner .tally input = .error failure' ∧
      failure'.cause = .raised e) ∨
    ∃ dump tally Taken,
      (Run.start fs miner.options.encoding log).all miner (.dump output) input = .ok dump ∧
      (Run.start fs miner.options.encoding log').all miner .tally input = .ok tally ∧
      Run.InStep miner out Taken dump tally := by
  cases hstops : fs.itinerary input with
  | error e =>
    rw [Run.all_eq_of_error _ rfl hstops, Run.all_eq_of_error _ rfl hstops]
    exact Or.inl ⟨_, _, _, rfl, rfl, rfl, rfl⟩
  | ok stops =>
    have hvisits : miner.visits fs input = miner.visited fs stops := by
      rw [visits, hstops]
    have hdump := Job.writesIn_dump hout
    have htally : Job.WritesIn fs (fun _ => False) .tally := trivial
    have hclear' : ∀ stop ∈ stops, ∀ d, stop.entered = some d → ¬ d = out := by
      rintro stop hmem d hentered rfl
      exact houtside d stops hout hstops stop hmem hentered
    rw [Run.all_eq hdump hstops hclear' _ rfl,
      Run.all_eq htally hstops (fun _ _ _ _ => id) _ rfl]
    let Taken : Nat → Prop := fun i =>
      ∃ stop tree, (stop, i) ∈ (miner.visits fs input).zipIdx 1 ∧ miner.Accepts fs stop tree
    have hstart : Run.InStep miner out Taken (Run.start fs miner.options.encoding log)
        (Run.start fs miner.options.encoding log') := by
      refine ⟨GrowsBy.refl fs, rfl, ⟨rfl, rfl, rfl, rfl, .nil⟩, ?_, [], .nil, fun _ => rfl⟩
      intro name hthere
      obtain ⟨node, hnode⟩ := Option.ne_none_iff_exists'.mp hthere
      have hname := FileSystem.mem_names_iff.mpr ⟨node, hnode⟩
      rw [show (Run.start fs miner.options.encoding log).fs.names out = [] from hempty] at hname
      simp at hname
    have hpass : ∀ stop ∈ (miner.visited fs stops).zipIdx 1,
        Run.Passable miner fs output out Taken stop.1 stop.2 := by
      rw [← hvisits]
      intro stop hmem
      refine ⟨?_, ?_, ?_⟩
      · rintro i hi ⟨earlier, tree, hearlier, haccepts⟩ name hname
        exact hclear stop hmem (earlier, i) hearlier hi tree name haccepts hname
      · have hle := List.le_snd_of_mem_zipIdx hmem
        have hlt := List.snd_lt_of_mem_zipIdx hmem
        exact hwritable stop.2 (by omega) (by omega)
      · intro tree hjudge
        exact ⟨stop.1, tree, hmem, judge_eq_accepted.mp hjudge⟩
    obtain hfail | ⟨dump, tally, hok, hok', hin⟩ := hstart.foldlM_take hmode hout hpass
    · exact Or.inl hfail
    · exact Or.inr ⟨dump, tally, Taken, hok, hok', hin⟩

/-- Counting and dumping agree, if the directory for documents is there, empty and outside the walk,
if all documents can be written, and if no visited entry has a path that leads through a document.
Both runs end with the same error, or their reports agree and the counts are those of the words in
all documents. -/
theorem count_agrees_with_build (hmode : miner.options.encoding.mode = .flat)
    (hout : fs.findDirectory output = .ok out) (hempty : fs.names out = [])
    (houtside : OutsideWalk fs input output) (hwidth : miner.options.sequenceWidth ≤ 251)
    (hfits : fitsWidth (miner.visits fs input).length miner.options.sequenceWidth)
    (hshort : ∀ i, 0 < i → i ≤ (miner.visits fs input).length → ∀ name,
      documentName i miner.options.sequenceWidth = .ok name →
        ¬ Path.isTooLong (Path.join output name))
    (hclear : miner.KeepsClear fs input out) :
    (∃ e, (miner.build fs input output).result = .error (.raised e) ∧
      (miner.countTokens fs input).result = .error (.raised e)) ∨
    ∃ dump counts tally, (miner.build fs input output).result = .ok dump ∧
      (miner.countTokens fs input).result = .ok (counts, tally) ∧ dump.AgreesWith tally ∧
      ∃ texts,
        List.Forall₂
          (fun path text => (miner.build fs input output).fs.read path = .ok (Text.bytes text))
          dump.documents texts ∧
        ∀ token, counts.get token = (texts.flatMap Text.words).count token := by
  have hdirectory : fs.isDirectory output :=
    FileSystem.isDirectory_iff_findDirectory.mpr ⟨out, hout⟩
  have hne : output ≠ [] := by
    rintro rfl
    rw [FileSystem.findDirectory_eq_ok_iff, FileSystem.land_eq] at hout
    simp [Path.holdsNul] at hout
  have hready : fs.documentDirectory output = .ok out := by
    rw [FileSystem.documentDirectory, if_neg hne, hout]
  have hwritable : ∀ i, 0 < i → i ≤ (miner.visits fs input).length →
      Run.Writable miner.options output i := by
    intro i hpos hi
    refine ⟨?_, hwidth, hshort i hpos hi⟩
    exact fitsWidth_iff.mpr (Nat.lt_of_le_of_lt hi (fitsWidth_iff.mp hfits))
  rw [build, countTokens, prepareOutput_of_isDirectory hdirectory]
  simp only
  obtain ⟨e, failure, failure', hfail, he, hfail', he'⟩ | ⟨dump, tally, Taken, hok, hok', hin⟩ :=
    runs_agree hmode hready hempty houtside hwritable hclear
      [.buildStarted input output miner.options.encoding] [.countStarted input]
  · rw [hfail, hfail']
    exact Or.inl ⟨e, congrArg Except.error he, congrArg Except.error he'⟩
  · rw [hok, hok']
    obtain ⟨texts, hread, hcounts⟩ := hin.words_counted
    exact Or.inr ⟨dump.report, tally.counts, tally.report, rfl, rfl, hin.reports_agree, texts,
      hread, hcounts⟩

theorem count_agrees_with_build_smallProject :
    smallProject.findDirectory "out".toList = .ok outputDir ∧
      smallProject.names outputDir = [] ∧
      OutsideWalk smallProject "in".toList "out".toList ∧
      (ofScripts {}).KeepsClear smallProject "in".toList outputDir ∧
      ∃ dump counts tally,
        ((ofScripts {}).build smallProject "in".toList "out".toList).result = .ok dump ∧
        ((ofScripts {}).countTokens smallProject "in".toList).result = .ok (counts, tally) ∧
        dump.AgreesWith tally := by
  have hout : smallProject.findDirectory "out".toList = .ok outputDir := by decide +kernel
  have hempty : smallProject.names outputDir = [] := by decide +kernel
  have houtside : OutsideWalk smallProject "in".toList "out".toList := by decide +kernel
  have hfour : ((ofScripts {}).visits smallProject "in".toList).length = 4 := by decide +kernel
  have hclear : (ofScripts {}).KeepsClear smallProject "in".toList outputDir := by
    have hpaths : ∀ stop ∈ ((ofScripts {}).visits smallProject "in".toList).zipIdx 1,
        ∀ location ∈ smallProject.lookedAt stop.1.path, location.tail ≠ outputDir := by
      decide +kernel
    intro stop hstop earlier _ _ tree name _ _ hlooked
    exact hpaths stop hstop _ hlooked rfl
  have hshort : ∀ i, 0 < i → i ≤ ((ofScripts {}).visits smallProject "in".toList).length →
      ∀ name, documentName i (ofScripts {}).options.sequenceWidth = .ok name →
        ¬ Path.isTooLong (Path.join "out".toList name) := by
    intro i _ hi name hname
    have hall : ∀ i ≤ 4, ((documentName i 8).toOption.all
        fun name => !Path.isTooLong (Path.join "out".toList name)) = true := by
      decide +kernel
    have hi' := hall i (hfour ▸ hi)
    rw [show documentName i 8 = .ok name from hname] at hi'
    simpa [Except.toOption] using hi'
  have hresult : ((ofScripts {}).build smallProject "in".toList "out".toList).result.isOk := by
    decide +kernel
  have hmode : (ofScripts {}).options.encoding.mode = .flat := rfl
  obtain ⟨e, herror, -⟩ | ⟨dump, counts, tally, hdump, htally, hagree, -⟩ :=
    count_agrees_with_build hmode hout hempty houtside (by decide) (by rw [hfour]; decide) hshort
      hclear
  · rw [herror] at hresult
    simp [Except.isOk, Except.toBool] at hresult
  · exact ⟨hout, hempty, houtside, hclear, dump, counts, tally, hdump, htally, hagree⟩

/-- A project with a link to the place for the document of a script. -/
def echoingProject : FileSystem :=
  projectOf
    [(firstScript, .file (Text.bytes "(x)".toList)),
      (⟨"z.sutra".toList, by decide⟩, .link "../../out/00000002.txt".toList)]
    (by decide)

/-- An output path with so many slashes behind it that the path of a document is too long. -/
def slashedOutput : Text := "out".toList ++ List.replicate 4090 '/'

/-- Neither the condition on links nor that on long paths can be left out. A dump makes the file that
a count does not find, and a count succeeds where a dump cannot write. -/
theorem count_differs_from_build :
    ((ofScripts {}).options.encoding.mode = .flat ∧ (ofScripts {}).options.sequenceWidth ≤ 251) ∧
    (echoingProject.findDirectory "out".toList = .ok outputDir ∧
      echoingProject.names outputDir = [] ∧
      OutsideWalk echoingProject "in".toList "out".toList ∧
      fitsWidth ((ofScripts {}).visits echoingProject "in".toList).length 8 ∧
      ((ofScripts {}).build echoingProject "in".toList "out".toList).result.isOk ∧
      ((ofScripts {}).countTokens echoingProject "in".toList).result =
        .error (.raised (.io .read "in/p/z.sutra".toList .notFound))) ∧
    smallProject.findDirectory slashedOutput = .ok outputDir ∧
      smallProject.names outputDir = [] ∧
      OutsideWalk smallProject "in".toList slashedOutput ∧
      fitsWidth ((ofScripts {}).visits smallProject "in".toList).length 8 ∧
      ¬ ((ofScripts {}).build smallProject "in".toList slashedOutput).result.isOk ∧
      ((ofScripts {}).countTokens smallProject "in".toList).result.isOk := by
  decide +kernel

end Miner

end TokenCorpus
