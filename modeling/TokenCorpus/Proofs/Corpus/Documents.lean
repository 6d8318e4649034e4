import Mathlib.Data.List.Nodup
import TokenCorpus.Proofs.FileSystem.Directories
import TokenCorpus.Proofs.Corpus.Ledger

/-!
The documents of a build.

A build that succeeds has made one document for each script and nothing else in the directory for
documents, and its report says so.
-/

namespace TokenCorpus

open FileSystem (GrowsBy FileIn)

namespace Miner

theorem prepareOutput_onTheWay (fs : FileSystem) (output : Text) :
    GrowsBy ((prepareOutput fs output).1.IsOnTheWay (Path.isAbsolute output)
      (Path.components output)) fs (prepareOutput fs output).1 := by
  rw [prepareOutput]
  split
  · exact GrowsBy.refl fs
  · exact FileSystem.createDirectories_grows fs output

theorem prepareOutput_grows (fs : FileSystem) (output : Text) :
    GrowsBy FileSystem.IsDirectory fs (prepareOutput fs output).1 :=
  (prepareOutput_onTheWay fs output).mono fun _ _ h => h.1

/-- Where there is a directory already, nothing is prepared. -/
theorem prepareOutput_of_isDirectory {fs : FileSystem} {output : Text}
    (h : fs.isDirectory output) : prepareOutput fs output = (fs, none) := by
  have hfind : fs.find output = .ok .directory := by
    obtain ⟨dir, hland⟩ := FileSystem.isDirectory_iff.mp h
    rw [FileSystem.find_eq, hland]
  have hleads : fs.leadsSomewhere output := by
    rw [FileSystem.leadsSomewhere, hfind]
  rw [prepareOutput, if_pos hleads, if_pos h]

/-- A prepared output path leads to the directory for documents. -/
theorem prepareOutput_ready {fs prepared : FileSystem} {output : Text}
    (h : prepareOutput fs output = (prepared, none)) :
    ∃ out, prepared.documentDirectory output = .ok out := by
  rw [prepareOutput] at h
  rw [FileSystem.documentDirectory]
  by_cases hempty : output = []
  · exact ⟨prepared.home, if_pos hempty⟩
  · rw [if_neg hempty, ← FileSystem.isDirectory_iff_findDirectory]
    split at h
    · simp only [Prod.mk.injEq, ite_eq_left_iff, reduceCtorEq, imp_false, Decidable.not_not] at h
      exact h.1 ▸ h.2
    · generalize hmade : fs.createDirectories output = result at h
      obtain ⟨made, failure⟩ := result
      simp only [Prod.mk.injEq, Option.map_eq_none_iff] at h
      obtain ⟨rfl, rfl⟩ := h
      exact FileSystem.createDirectories_isDirectory hempty hmade

/-- A stop is a file with the right extension, and the parser makes `tree` of its text. -/
def Accepts (miner : Miner) (fs : FileSystem) (stop : Stop) (tree : Node) : Prop :=
  ∃ name bytes source, stop.name? = some name ∧ miner.options.accepts name.text ∧
    fs.read stop.path = .ok bytes ∧ Utf8.decode? bytes = some source ∧
    miner.parser stop.path source = .ok tree

/-- A stop is a file with the right extension, but it is no text or the parser refuses its text. -/
def Refuses (miner : Miner) (fs : FileSystem) (stop : Stop) : Prop :=
  ∃ name bytes, stop.name? = some name ∧ miner.options.accepts name.text ∧
    fs.read stop.path = .ok bytes ∧
    ∀ source, Utf8.decode? bytes = some source → ∃ e, miner.parser stop.path source = .error e

/-- A stop is a file with another extension. -/
def Ignores (miner : Miner) (stop : Stop) : Prop :=
  ∃ name, stop.name? = some name ∧ ¬ miner.options.accepts name.text

/-- What a verdict on a file says about the file. -/
theorem judgeFile_eq_ok {miner : Miner} {fs : FileSystem} {path : Text} {name : Name}
    {verdict : Verdict} (h : miner.judgeFile fs path name = .ok verdict) :
    (¬ miner.options.accepts name.text ∧ verdict = .otherExtension) ∨
    (miner.options.accepts name.text ∧ ∃ bytes, fs.read path = .ok bytes ∧
      ((∃ source tree, Utf8.decode? bytes = some source ∧ miner.parser path source = .ok tree ∧
          verdict = .accepted tree) ∨
        ((∀ source, Utf8.decode? bytes = some source →
            ∃ e, miner.parser path source = .error e) ∧
          ∃ e, verdict = .unparsable e))) := by
  rw [judgeFile] at h
  split at h
  · next hother =>
    cases h
    exact Or.inl ⟨by simpa using hother, rfl⟩
  · next haccepts =>
    refine Or.inr ⟨by simpa using haccepts, ?_⟩
    cases hread : fs.read path with
    | error e => simp [hread] at h
    | ok bytes =>
      refine ⟨bytes, rfl, ?_⟩
      simp only [hread, Utf8.read] at h
      cases hdecode : Utf8.decode? bytes with
      | none =>
        simp only [hdecode, Except.bind, Except.ok.injEq] at h
        exact Or.inr ⟨by simp, _, h.symm⟩
      | some source =>
        cases hparse : miner.parser path source with
        | error e =>
          simp only [hdecode, Except.bind, hparse, Except.ok.injEq] at h
          refine Or.inr ⟨?_, _, h.symm⟩
          intro other heq
          cases heq
          exact ⟨e, hparse⟩
        | ok tree =>
          simp only [hdecode, Except.bind, hparse, Except.ok.injEq] at h
          exact Or.inl ⟨source, tree, rfl, hparse, h.symm⟩

/-- Every stop but a directory is judged as a file under its name. -/
theorem exists_name_of_judge {miner : Miner} {fs : FileSystem} {stop : Stop} {verdict : Verdict}
    (h : miner.judge fs stop = .ok verdict) (hne : verdict ≠ .directory) :
    ∃ name, stop.name? = some name ∧ miner.judgeFile fs stop.path name = .ok verdict := by
  cases stop with
  | directory =>
    cases h
    exact absurd rfl hne
  | lost => simp [judge] at h
  | file path name => exact ⟨name, rfl, h⟩
  | link path name =>
    refine ⟨name, rfl, ?_⟩
    simp only [judge] at h
    split at h
    · simp at h
    · simp at h
    · exact h

theorem ignores_of_judge {miner : Miner} {fs : FileSystem} {stop : Stop}
    (h : miner.judge fs stop = .ok .otherExtension) : miner.Ignores stop := by
  obtain ⟨name, hname, hfile⟩ := exists_name_of_judge h (by simp)
  obtain ⟨hother, -⟩ | ⟨-, bytes, -, ⟨_, _, -, -, heq⟩ | ⟨-, _, heq⟩⟩ := judgeFile_eq_ok hfile
  · exact ⟨name, hname, hother⟩
  · simp at heq
  · simp at heq

theorem refuses_of_judge {miner : Miner} {fs : FileSystem} {stop : Stop} {e : ParseError}
    (h : miner.judge fs stop = .ok (.unparsable e)) : miner.Refuses fs stop := by
  obtain ⟨name, hname, hfile⟩ := exists_name_of_judge h (by simp)
  obtain ⟨-, heq⟩ | ⟨haccepts, bytes, hread, ⟨_, _, -, -, heq⟩ | ⟨hrefused, -⟩⟩ :=
    judgeFile_eq_ok hfile
  · simp at heq
  · simp at heq
  · exact ⟨name, bytes, hname, haccepts, hread, hrefused⟩

theorem judge_eq_accepted {miner : Miner} {fs : FileSystem} {stop : Stop} {tree : Node} :
    miner.judge fs stop = .ok (.accepted tree) ↔ miner.Accepts fs stop tree := by
  constructor
  · intro h
    obtain ⟨name, hname, hfile⟩ := exists_name_of_judge h (by simp)
    obtain ⟨-, heq⟩ | ⟨haccepts, bytes, hread, ⟨source, _, hdecode, hparse, heq⟩ | ⟨-, _, heq⟩⟩ :=
      judgeFile_eq_ok hfile
    · simp at heq
    · cases heq
      exact ⟨name, bytes, source, hname, haccepts, hread, hdecode, hparse⟩
    · simp at heq
  · rintro ⟨name, bytes, source, hname, haccepts, hread, hdecode, hparse⟩
    have hfile : miner.judgeFile fs stop.path name = .ok (.accepted tree) := by
      simp [judgeFile, haccepts, hread, Utf8.read, hdecode, Except.bind, hparse]
    cases stop with
    | directory => simp [Stop.name?] at hname
    | lost => simp [Stop.name?] at hname
    | file path name' =>
      cases hname
      exact hfile
    | link path name' =>
      cases hname
      obtain ⟨location, hland⟩ := FileSystem.read_eq_ok_iff.mp hread
      rw [judge, show fs.land .target path = _ from hland]
      exact hfile

/-- What a report says of the stop with the given number. -/
structure Reports (miner : Miner) (fs : FileSystem) (output : Text) (stop : Stop × Nat)
    (file : CorpusFile) : Prop where
  sequence_eq : file.sequence = stop.2
  sourcePath_eq : file.sourcePath = stop.1.path
  status_eq :
    (∃ tree name, miner.Accepts fs stop.1 tree ∧
      documentName stop.2 miner.options.sequenceWidth = .ok name ∧
      file.status = .written ∧ file.outputPath = some (Path.join output name)) ∨
    (miner.Refuses fs stop.1 ∧ file.status = .skippedUnparsable ∧ file.outputPath = none) ∨
    (miner.Ignores stop.1 ∧ file.status = .skippedNonMatchingExtension ∧ file.outputPath = none)

theorem reports_of_records {miner : Miner} {fs : FileSystem} {output : Text} {stop : Stop × Nat}
    {file : CorpusFile} (h : miner.Records (.dump output) fs stop file) :
    miner.Reports fs output stop file := by
  obtain ⟨verdict, hjudge, hrecord, hname⟩ := h
  cases verdict with
  | directory => simp [Verdict.record?] at hrecord
  | otherExtension =>
    cases hrecord
    exact ⟨rfl, rfl, Or.inr (Or.inr ⟨ignores_of_judge hjudge, rfl, rfl⟩)⟩
  | unparsable e =>
    cases hrecord
    exact ⟨rfl, rfl, Or.inr (Or.inl ⟨refuses_of_judge hjudge, rfl, rfl⟩)⟩
  | accepted tree =>
    cases hrecord
    obtain ⟨name, hname⟩ := hname output tree rfl rfl
    refine ⟨rfl, rfl, Or.inl ⟨tree, name, judge_eq_accepted.mp hjudge, hname, rfl, ?_⟩⟩
    simp only [Job.document?, hname]
    rfl

/-- The walk does not enter the directory for documents. -/
def OutsideWalk (fs : FileSystem) (input output : Text) : Prop :=
  ∀ out stops, fs.documentDirectory output = .ok out → fs.itinerary input = .ok stops →
    ∀ stop ∈ stops, stop.entered ≠ some out

instance (fs : FileSystem) (input output : Text) : Decidable (OutsideWalk fs input output) :=
  match hout : fs.documentDirectory output, hstops : fs.itinerary input with
  | .ok out, .ok stops =>
    decidable_of_iff (∀ stop ∈ stops, stop.entered ≠ some out) (by simp [OutsideWalk, hout, hstops])
  | .error _, _ => isTrue (by simp [OutsideWalk, hout])
  | .ok _, .error _ => isTrue (by simp [OutsideWalk, hstops])

theorem OutsideWalk.not_entered {fs : FileSystem} {input output : Text} {out : Location}
    (h : OutsideWalk fs input output) (hout : fs.documentDirectory output = .ok out) :
    ∀ stops, fs.itinerary input = .ok stops →
      ∀ stop ∈ stops, ∀ d, stop.entered = some d → ¬ d = out := by
  rintro stops hstops stop hmem d hentered rfl
  exact h d stops hout hstops stop hmem hentered

/-- A build that succeeds has made a run that succeeds, over the file system that it has prepared. -/
theorem exists_run_of_build {miner : Miner} {fs : FileSystem} {input output : Text}
    {report : BuildReport} (h : (miner.build fs input output).result = .ok report) :
    ∃ prepared, ∃ last : Run prepared, prepareOutput fs output = (prepared, none) ∧
      (Run.start prepared miner.options.encoding
        [.buildStarted input output miner.options.encoding]).all miner (.dump output) input =
          .ok last ∧
      miner.build fs input output =
        ⟨last.fs, last.log ++ [.buildComplete last.report], .ok last.report⟩ ∧
      report = last.report := by
  rw [build] at h ⊢
  generalize prepareOutput fs output = result at h ⊢
  obtain ⟨prepared, failure⟩ := result
  cases failure with
  | some e => simp at h
  | none =>
    simp only at h ⊢
    cases hall : (Run.start prepared miner.options.encoding
        [.buildStarted input output miner.options.encoding]).all miner (.dump output) input with
    | error failure => simp [hall] at h
    | ok last =>
      simp only [hall, Except.ok.injEq] at h ⊢
      exact ⟨prepared, last, rfl, hall, rfl, h.symm⟩

/-- What a build that succeeds has done: it came through the itinerary of the prepared file
system. -/
theorem build_eq_ok {miner : Miner} {fs : FileSystem} {input output : Text} {report : BuildReport}
    (houtside : OutsideWalk (prepareOutput fs output).1 input output)
    (h : (miner.build fs input output).result = .ok report) :
    ∃ prepared out stops, ∃ last : Run prepared, prepareOutput fs output = (prepared, none) ∧
      prepared.documentDirectory output = .ok out ∧ prepared.itinerary input = .ok stops ∧
      stops.foldlM (Run.take miner (.dump output))
        (Run.start prepared miner.options.encoding
          [.buildStarted input output miner.options.encoding]) = .ok last ∧
      (miner.build fs input output).fs = last.fs ∧ report = last.report := by
  obtain ⟨prepared, last, hprepare, hall, hbuild, hreport⟩ := exists_run_of_build h
  obtain ⟨out, hout⟩ := prepareOutput_ready hprepare
  rw [hprepare] at houtside
  have hjob := Job.writesIn_dump hout
  obtain ⟨stops, hstops, hfold⟩ := Run.all_eq_ok hjob (houtside.not_entered hout) rfl hall
  exact ⟨prepared, out, stops, last, hprepare, hout, hstops, hfold, by rw [hbuild], hreport⟩

/-- What a count that succeeds has done. It makes no files, so it came through the itinerary. -/
theorem countTokens_eq_ok {miner : Miner} {fs : FileSystem} {input : Text} {counts : TokenCounts}
    {report : BuildReport} (h : (miner.countTokens fs input).result = .ok (counts, report)) :
    ∃ stops, ∃ last : Run fs, fs.itinerary input = .ok stops ∧
      stops.foldlM (Run.take miner .tally)
        (Run.start fs miner.options.encoding [.countStarted input]) = .ok last ∧
      miner.countTokens fs input =
        ⟨last.fs, last.log ++ [.countComplete last.report last.counts.distinct],
          .ok (last.counts, last.report)⟩ ∧
      counts = last.counts ∧ report = last.report := by
  rw [countTokens] at h ⊢
  cases hall : (Run.start fs miner.options.encoding [.countStarted input]).all miner .tally input with
  | error failure => simp [hall] at h
  | ok last =>
    have hjob : Job.WritesIn fs (fun _ => False) .tally := trivial
    obtain ⟨stops, hstops, hfold⟩ := Run.all_eq_ok hjob (fun _ _ _ _ _ _ => id) rfl hall
    simp only [hall, Except.ok.injEq, Prod.mk.injEq] at h ⊢
    exact ⟨stops, last, hstops, hfold, rfl, h.1.symm, h.2.symm⟩

/-- A build that succeeds has numbered the stops of the walk. The new files in the directory for
documents are exactly the documents of the stops that are scripts, each under the name for its
number and with the encoding of its own tree; and the report has one record for each stop that is no
directory. What could be read before still reads the same. -/
theorem build_documents {miner : Miner} {fs : FileSystem} {input output : Text}
    {report : BuildReport} (houtside : OutsideWalk (prepareOutput fs output).1 input output)
    (h : (miner.build fs input output).result = .ok report) :
    ∃ out stops, (prepareOutput fs output).1.documentDirectory output = .ok out ∧
      (prepareOutput fs output).1.itinerary input = .ok stops ∧
      (∀ path content, (prepareOutput fs output).1.read path = .ok content →
        (miner.build fs input output).fs.read path = .ok content) ∧
      (∀ name content,
        fs.get? (name :: out) = none ∧
            (miner.build fs input output).fs.get? (name :: out) = some (.file content) ↔
          ∃ stop ∈ stops.zipIdx 1, ∃ tree,
            miner.Accepts (miner.build fs input output).fs stop.1 tree ∧
            documentName stop.2 miner.options.sequenceWidth = .ok name.text ∧
            content = (tree.encoding miner.options.encoding).bytes) ∧
      report.entriesVisited = stops.length ∧
      List.Forall₂ (miner.Reports (miner.build fs input output).fs output)
        ((stops.zipIdx 1).filter (!·.1.isDirectory)) report.files := by
  obtain ⟨prepared, out, stops, last, hprepare, hout, hstops, hfold, hfs, rfl⟩ :=
    build_eq_ok houtside h
  have hprepared : GrowsBy FileSystem.IsDirectory fs prepared := by
    simpa only [hprepare] using prepareOutput_grows fs output
  rw [hprepare, hfs]
  have hjob : Job.WritesIn prepared (· = out) (.dump output) := ⟨out, hout, rfl⟩
  have hstart : (Run.start prepared miner.options.encoding
      [.buildStarted input output miner.options.encoding]).Grown (· = out) := GrowsBy.refl prepared
  obtain ⟨hgrows, hdocuments⟩ := Run.documents_foldlM_take hout hstart hfold
  obtain ⟨files, hfiles, hrecords⟩ := Run.records_foldlM_take hjob hstart hfold
  refine ⟨out, stops, hout, hstops, ?_, ?_, ?_, ?_⟩
  · intro path content hread
    exact FileSystem.read_grows (Run.grows_foldlM_take hjob hstart hfold) hread
  · intro name content
    constructor
    · rintro ⟨hfree, hthere⟩
      obtain hold | ⟨-, stop, hmem, tree, name', hjudge, hname, heq, hnode⟩ :=
        hgrows.get?_cases hthere
      · obtain hold' | ⟨-, hdirectory⟩ := hprepared.get?_cases hold
        · rw [hfree] at hold'
          simp at hold'
        · simp [FileSystem.IsDirectory] at hdirectory
      · cases heq
        cases hnode
        exact ⟨stop, hmem, tree, judge_eq_accepted.mp hjudge, hname, rfl⟩
    · rintro ⟨stop, hmem, tree, haccepts, hname, rfl⟩
      obtain ⟨hfree, hthere⟩ := hdocuments (name :: out) _
        ⟨stop, hmem, tree, name, judge_eq_accepted.mpr haccepts, hname, rfl, rfl⟩
      refine ⟨?_, hthere⟩
      cases hbefore : fs.get? (name :: out) with
      | none => rfl
      | some node =>
        have hpresent := hprepared.get?_of_some hbefore
        rw [show prepared.get? (name :: out) = none from hfree] at hpresent
        simp at hpresent
  · exact (Run.sequence_foldlM_take hfold).trans (Nat.zero_add _)
  · have hall : last.report.files = files := hfiles
    rw [hall]
    exact hrecords.imp fun _ _ => reports_of_records

def inputDir : Location := [⟨"in".toList, by decide⟩]

def outputDir : Location := [⟨"out".toList, by decide⟩]

def projectDir : Location := ⟨"p".toList, by decide⟩ :: inputDir

def firstScript : Name := ⟨"a.sutra".toList, by decide⟩

/-- An input directory with one project, which holds the given nodes, and an empty directory beside
it. -/
def projectOf (nodes : List (Name × FileNode)) (hnodes : (nodes.map Prod.fst).Nodup) :
    FileSystem where
  entries :=
    [(inputDir, .directory), (outputDir, .directory), (projectDir, .directory)] ++
      nodes.map fun node => (node.1 :: projectDir, node.2)
  distinct := by
    rw [List.map_append, List.map_map, List.nodup_append]
    refine ⟨by decide, ?_, ?_⟩
    · have hinjective : Function.Injective fun name : Name => name :: projectDir :=
        fun _ _ h => (List.cons.inj h).1
      have hmap := List.Nodup.map hinjective hnodes
      rwa [List.map_map] at hmap
    · intro dir hdir location hlocation heq
      obtain ⟨node, -, rfl⟩ := List.mem_map.mp hlocation
      have hlength : ∀ d ∈ [inputDir, outputDir, projectDir], d.length ≤ 2 := by decide
      have hle := hlength dir hdir
      rw [heq] at hle
      exact absurd hle (by simp [projectDir, inputDir])
  rooted := by
    intro e he
    cases List.mem_append.mp he with
    | inl he =>
      simp only [List.mem_cons, List.not_mem_nil, or_false] at he
      obtain rfl | rfl | rfl := he
      · exact ⟨_, [], rfl, Or.inl rfl⟩
      · exact ⟨_, [], rfl, Or.inl rfl⟩
      · exact ⟨_, inputDir, rfl, Or.inr (by simp)⟩
    | inr he =>
      obtain ⟨node, -, rfl⟩ := List.mem_map.mp he
      exact ⟨node.1, projectDir, rfl, Or.inr (by simp)⟩
  home := []
  homeThere := Or.inl rfl

/-- A project with a script, a file that is no script, and one with another extension. -/
def smallProject : FileSystem :=
  projectOf
    [(firstScript, .file (Text.bytes "(x 1)".toList)),
      (⟨"b.Sutra".toList, by decide⟩, .file (Text.bytes ")".toList)),
      (⟨"c.txt".toList, by decide⟩, .file [])]
    (by decide)

theorem valid_brokenName : Name.Valid "b.Sutra".toList := by decide

theorem valid_otherName : Name.Valid "c.txt".toList := by decide

/-- The entries of the small project. -/
def smallStops : List Stop :=
  [.directory "in/p".toList (some projectDir), .file "in/p/a.sutra".toList firstScript,
    .file "in/p/b.Sutra".toList ⟨"b.Sutra".toList, valid_brokenName⟩,
    .file "in/p/c.txt".toList ⟨"c.txt".toList, valid_otherName⟩]

theorem smallStops_eq : smallProject.itinerary "in".toList = .ok smallStops := by decide +kernel

theorem valid_documentName : Name.Valid "00000002.txt".toList := by decide

/-- The script is the second entry of the small project, and the document with that number holds its
tokens. -/
theorem build_documents_smallProject :
    let built := (ofScripts {}).build smallProject "in".toList "out".toList
    let document := ⟨"00000002.txt".toList, valid_documentName⟩ :: outputDir
    ∃ report : BuildReport,
      OutsideWalk (prepareOutput smallProject "out".toList).1 "in".toList "out".toList ∧
      built.result = .ok report ∧
      smallProject.get? document = none ∧
      built.fs.get? document = some (.file (Text.bytes "x 1".toList)) ∧
      (∀ name content,
        smallProject.get? (name :: outputDir) = none ∧
            built.fs.get? (name :: outputDir) = some (.file content) ↔
          ∃ stop ∈ smallStops.zipIdx 1, ∃ tree,
            (ofScripts {}).Accepts built.fs stop.1 tree ∧
            documentName stop.2 8 = .ok name.text ∧ content = (tree.encoding {}).bytes) ∧
      report.entriesVisited = smallStops.length ∧
      List.Forall₂ ((ofScripts {}).Reports built.fs "out".toList)
        ((smallStops.zipIdx 1).filter (!·.1.isDirectory)) report.files := by
  intro built document
  have houtside :
      OutsideWalk (prepareOutput smallProject "out".toList).1 "in".toList "out".toList := by
    decide +kernel
  have hok : built.result =
      .ok { encoding := {}, entriesVisited := 4, written := 1, skippedUnparsable := 1,
            skippedExtension := 1,
            files :=
              [⟨2, "in/p/a.sutra".toList, .written, some "out/00000002.txt".toList⟩,
                ⟨3, "in/p/b.Sutra".toList, .skippedUnparsable, none⟩,
                ⟨4, "in/p/c.txt".toList, .skippedNonMatchingExtension, none⟩] } := by
    decide +kernel
  have hprepare : (prepareOutput smallProject "out".toList).1 = smallProject := by
    rw [prepareOutput_of_isDirectory (by decide +kernel)]
  obtain ⟨out, stops, hout, hstops, -, hnew, hvisited, hrecords⟩ := build_documents houtside hok
  rw [hprepare] at hout hstops
  have hout' : smallProject.documentDirectory "out".toList = .ok outputDir := by decide +kernel
  rw [hout', Except.ok.injEq] at hout
  rw [smallStops_eq, Except.ok.injEq] at hstops
  subst hout hstops
  exact ⟨_, houtside, hok, by decide +kernel, by decide +kernel, hnew, hvisited, hrecords⟩

end Miner

end TokenCorpus
