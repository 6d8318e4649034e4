import TokenCorpus.Proofs.Corpus.Agenda
import TokenCorpus.Proofs.Corpus.Documents
import TokenCorpus.Proofs.Corpus.Log

/-!
The books of a run.

A run numbers its entries in one place, tells of the directories in another and records the files in
a third, where it also counts them by what became of them. Main statement: in the report of every run
that succeeds these agree, even where the run has come across its own documents.
-/

namespace TokenCorpus

/-- The piece of a path behind its last slash. -/
def Path.last (path : Text) : Text := (pieces '/' path).getLastD []

theorem Path.last_join (dir : Text) {name : Text} (h : '/' ∉ name) :
    last (join dir name) = name := by
  have hbehind : ∀ d : Text, last (d ++ '/' :: name) = name := by
    intro d
    rw [last, pieces_append, pieces_of_not_mem h, List.getLastD_concat]
  rw [join]
  split
  · next hdir =>
    obtain rfl | hslash := hdir
    · rw [List.nil_append, last, pieces_of_not_mem h]
      rfl
    · obtain ⟨d, rfl⟩ := exists_of_endsInSlash hslash
      rw [List.append_assoc]
      exact hbehind d
  · exact hbehind dir

/-- The number and the path of the directory that an event is about. -/
def Event.directory? : Event → Option (Nat × Text)
  | directory sequence path => some (sequence, path)
  | _ => none

/-- The directories visited, as the log tells them. -/
def Outcome.directories {α : Type} (o : Outcome α) : List (Nat × Text) :=
  o.log.filterMap Event.directory?

theorem Outcome.directories_concat {α : Type} {fs : FileSystem} {log : List Event} {event : Event}
    {result : Except (Abort BuildError) α} (h : event.directory? = none) :
    Outcome.directories ⟨fs, log ++ [event], result⟩ = log.filterMap Event.directory? := by
  simp [directories, h]

namespace BuildReport

variable {r : BuildReport} {directories : List (Nat × Text)} {file : CorpusFile}

/-- How many files came to a status, as the report has counted them. -/
def tallied (r : BuildReport) : FileStatus → Nat
  | .written => r.written
  | .counted => r.counted
  | .skippedUnparsable => r.skippedUnparsable
  | .skippedNonMatchingExtension => r.skippedExtension

/-- All the files that a report has counted. -/
def total (r : BuildReport) : Nat :=
  r.written + r.counted + r.skippedUnparsable + r.skippedExtension

theorem tallied_push (r : BuildReport) (file : CorpusFile) (status : FileStatus) :
    (r.push file).tallied status = r.tallied status + if file.status = status then 1 else 0 := by
  rw [push]
  cases file.status <;> cases status <;> rfl

theorem length_eq_countP_status (files : List CorpusFile) :
    files.length =
      files.countP (·.status = .written) + files.countP (·.status = .counted) +
        files.countP (·.status = .skippedUnparsable) +
        files.countP (·.status = .skippedNonMatchingExtension) := by
  induction files with
  | nil => rfl
  | cons file files ih =>
    simp only [List.length_cons, List.countP_cons, ih]
    cases file.status <;> simp <;> omega

theorem numbers_visit (r : BuildReport) :
    List.range' 1 r.visit.entriesVisited =
      List.range' 1 r.entriesVisited ++ [r.entriesVisited + 1] := by
  rw [visit, List.range'_concat, Nat.one_mul, Nat.add_comm 1]

/-- What a report keeps of the entries visited: with the directories told of, its records have all
the numbers from one on, each once. -/
structure Accounts (r : BuildReport) (directories : List (Nat × Text)) : Prop where
  increasing : (r.files.map CorpusFile.sequence).Pairwise (· < ·)
  covered : (r.files.map CorpusFile.sequence ++ directories.map Prod.fst).Perm
    (List.range' 1 r.entriesVisited)
  tallied_eq : ∀ status, r.tallied status = r.files.countP (·.status = status)
  outputPath_iff : ∀ file ∈ r.files, file.outputPath.isSome ↔ file.status = .written

/-- The counters of a report agree with its records and with the directories told of. -/
structure Balances (r : BuildReport) (directories : List (Nat × Text)) : Prop
    extends Accounts r directories where
  numbered : ∀ file ∈ r.files, 1 ≤ file.sequence ∧ file.sequence ≤ r.entriesVisited
  total_eq : r.total = r.files.length
  visited_eq : r.entriesVisited = r.total + directories.length

namespace Accounts

theorem start (encoding : EncodingConfig) : Accounts { encoding } [] where
  increasing := .nil
  covered := .nil
  tallied_eq := by
    intro status
    cases status <;> rfl
  outputPath_iff := by simp

theorem numbered (h : r.Accounts directories) (hfile : file ∈ r.files) :
    1 ≤ file.sequence ∧ file.sequence ≤ r.entriesVisited := by
  have hmem := h.covered.subset (List.mem_append_left _ (List.mem_map_of_mem hfile))
  rw [List.mem_range'_1] at hmem
  omega

theorem balances (h : r.Accounts directories) : r.Balances directories := by
  have htotal : r.total = r.files.length := by
    rw [length_eq_countP_status, ← h.tallied_eq, ← h.tallied_eq, ← h.tallied_eq, ← h.tallied_eq]
    rfl
  have hlength := h.covered.length_eq
  rw [List.length_append, List.length_map, List.length_map, List.length_range'] at hlength
  exact { h with
    numbered := fun _ => h.numbered
    total_eq := htotal
    visited_eq := by omega }

theorem tallied_eq_zero (h : r.Accounts directories) {status : FileStatus}
    (hnone : ∀ file ∈ r.files, file.status ≠ status) : r.tallied status = 0 := by
  rw [h.tallied_eq, List.countP_eq_zero]
  intro file hfile
  simpa using hnone file hfile

theorem documents_eq_nil (h : r.Accounts directories)
    (hnone : ∀ file ∈ r.files, file.status ≠ .written) : r.documents = [] := by
  rw [documents, List.filterMap_eq_nil_iff]
  intro file hfile
  rw [← Option.not_isSome_iff_eq_none, h.outputPath_iff file hfile]
  exact hnone file hfile

/-- The next number goes to a directory, which has no record. -/
theorem visit (h : r.Accounts directories) (path : Text) :
    r.visit.Accounts (directories ++ [(r.entriesVisited + 1, path)]) := by
  refine { h with covered := ?_ }
  rw [numbers_visit, List.map_append, ← List.append_assoc]
  exact h.covered.append_right _

/-- The next number goes to a file, which has a record. -/
theorem push (h : r.Accounts directories) (hsequence : file.sequence = r.entriesVisited + 1)
    (houtput : file.outputPath.isSome ↔ file.status = .written) :
    (r.visit.push file).Accounts directories where
  increasing := by
    rw [files_push, List.map_append, List.pairwise_append]
    refine ⟨h.increasing, List.pairwise_singleton _ _, fun before hbefore last hlast => ?_⟩
    obtain ⟨other, hother, rfl⟩ := List.mem_map.mp hbefore
    rw [List.mem_singleton.mp hlast, hsequence]
    exact Nat.lt_succ_of_le (h.numbered hother).2
  covered := by
    have hfiles : (r.visit.push file).files.map CorpusFile.sequence =
        r.files.map CorpusFile.sequence ++ [r.entriesVisited + 1] := by
      rw [files_push, List.map_append, List.map_singleton, hsequence]
      rfl
    rw [entriesVisited_push, numbers_visit, hfiles, List.append_assoc]
    refine (List.Perm.append_left _ List.perm_append_comm).trans ?_
    rw [← List.append_assoc]
    exact h.covered.append_right _
  tallied_eq := by
    intro status
    have hbefore : r.visit.tallied status = r.visit.files.countP (·.status = status) :=
      h.tallied_eq status
    rw [tallied_push, hbefore, files_push, List.countP_append, List.countP_singleton]
    simp only [decide_eq_true_eq]
  outputPath_iff := by
    intro other hother
    rw [files_push] at hother
    obtain hbefore | hlast := List.mem_append.mp hother
    · exact h.outputPath_iff other hbefore
    · rw [List.mem_singleton.mp hlast]
      exact houtput

end Accounts

end BuildReport

namespace Job

/-- A record that a job makes of a file. Only a dump names a document, and only for a script. -/
inductive Makes (options : BuildOptions) (file : CorpusFile) : Job → Prop where
  | skipped {job : Job}
      (hstatus : file.status = .skippedUnparsable ∨ file.status = .skippedNonMatchingExtension)
      (houtput : file.outputPath = none) : Makes options file job
  | counted (hstatus : file.status = .counted) (houtput : file.outputPath = none) :
      Makes options file .tally
  | written {output name : Text} (hstatus : file.status = .written)
      (hname : documentName file.sequence options.sequenceWidth = .ok name)
      (houtput : file.outputPath = some (Path.join output name)) :
      Makes options file (.dump output)

namespace Makes

variable {options : BuildOptions} {file : CorpusFile} {job : Job} {output : Text}

theorem outputPath_iff (h : job.Makes options file) :
    file.outputPath.isSome ↔ file.status = .written := by
  cases h with
  | skipped hstatus houtput => obtain hstatus | hstatus := hstatus <;> simp [hstatus, houtput]
  | counted hstatus houtput => simp [hstatus, houtput]
  | written hstatus _ houtput => simp [hstatus, houtput]

/-- A job gives one status to all the scripts that it accepts. -/
theorem status_ne (h : job.Makes options file) {status : FileStatus}
    (haccepted : status = .written ∨ status = .counted) (hne : status ≠ job.status) :
    file.status ≠ status := by
  rintro rfl
  cases h with
  | skipped hstatus => obtain hstatus | hstatus := hstatus <;> simp [hstatus] at haccepted
  | counted hstatus => exact hne hstatus
  | written hstatus => exact hne hstatus

theorem exists_name (h : (Job.dump output).Makes options file) {path : Text}
    (hpath : file.outputPath = some path) :
    ∃ name, documentName file.sequence options.sequenceWidth = .ok name ∧
      path = Path.join output name := by
  cases h with
  | skipped _ houtput => simp [houtput] at hpath
  | written _ hname houtput =>
    rw [houtput, Option.some.injEq] at hpath
    exact ⟨_, hname, hpath.symm⟩

end Makes

end Job

/-- The names of the documents are in the order of the records, which have increasing numbers. -/
theorem BuildReport.documents_increase {r : BuildReport} {options : BuildOptions} {output : Text}
    (hincreasing : (r.files.map CorpusFile.sequence).Pairwise (· < ·))
    (hmade : ∀ file ∈ r.files, (Job.dump output).Makes options file) :
    (r.documents.map Path.last).Pairwise fun a b => a.bytes < b.bytes := by
  rw [List.pairwise_map, documents, List.pairwise_filterMap]
  refine (List.pairwise_map.mp hincreasing).imp_of_mem ?_
  intro file later hfile hlater hlt path hpath path' hpath'
  obtain ⟨name, hname, rfl⟩ := (hmade file hfile).exists_name hpath
  obtain ⟨name', hname', rfl⟩ := (hmade later hlater).exists_name hpath'
  rw [Path.last_join output (slash_not_mem_documentName hname),
    Path.last_join output (slash_not_mem_documentName hname')]
  exact bytes_documentName_lt hname hname' hlt

theorem Verdict.event_of_record? {verdict : Verdict} {job : Job} {options : BuildOptions}
    {sequence : Nat} {path : Text} {file : CorpusFile}
    (h : verdict.record? job options sequence path = some file) :
    file.sequence = sequence ∧ (verdict.event job sequence path).directory? = none := by
  cases verdict with
  | directory => simp [record?] at h
  | otherExtension | unparsable | accepted =>
    cases h
    exact ⟨rfl, rfl⟩

namespace Run

variable {base : FileSystem} {miner : Miner} {job : Job} {run next : Run base}

theorem makes_of_settle {options : BuildOptions} {path : Text} {verdict : Verdict}
    (h : run.settle options job path verdict = .ok next) {file : CorpusFile}
    (hrecord : verdict.record? job options run.sequence path = some file) :
    job.Makes options file := by
  cases verdict with
  | directory => simp [Verdict.record?] at hrecord
  | otherExtension =>
    cases hrecord
    exact .skipped (Or.inr rfl) rfl
  | unparsable =>
    cases hrecord
    exact .skipped (Or.inl rfl) rfl
  | accepted tree =>
    cases hrecord
    cases job with
    | tally => exact .counted rfl rfl
    | dump output =>
      obtain ⟨name, hname, -⟩ := writeDocument_eq_ok h
      refine .written rfl hname ?_
      simp only [Job.document?, hname]
      rfl

/-- The books of a run: its report accounts for the directories it has told of, and its records are
those that the job makes. -/
structure KeepsBooks (run : Run base) (options : BuildOptions) (job : Job) : Prop where
  accounts : run.report.Accounts (run.log.filterMap Event.directory?)
  made : ∀ file ∈ run.report.files, job.Makes options file

theorem keepsBooks_start (base : FileSystem) (encoding : EncodingConfig) {event : Event}
    (h : event.directory? = none) (options : BuildOptions) (job : Job) :
    (start base encoding [event]).KeepsBooks options job where
  accounts := by
    have hlog : [event].filterMap Event.directory? = [] := by simp [h]
    rw [start, hlog]
    exact .start encoding
  made := by simp [start]

theorem keepsBooks_take {stop : Stop} (hrun : run.KeepsBooks miner.options job)
    (h : run.take miner job stop = .ok next) : next.KeepsBooks miner.options job := by
  obtain ⟨verdict, -, hsettle⟩ := take_eq_ok h
  have hreport := settle_report hsettle
  have hlog : next.log = run.log ++ [verdict.event job run.visit.sequence stop.path] :=
    settle_log hsettle
  cases hrecord : verdict.record? job miner.options run.visit.sequence stop.path with
  | none =>
    obtain rfl := Verdict.record?_eq_none.mp hrecord
    rw [hrecord] at hreport
    constructor
    · rw [hreport, hlog, List.filterMap_append]
      exact hrun.accounts.visit stop.path
    · rw [hreport]
      exact hrun.made
  | some file =>
    obtain ⟨hsequence, hevent⟩ := Verdict.event_of_record? hrecord
    have hmakes := makes_of_settle hsettle hrecord
    rw [hrecord] at hreport
    constructor
    · rw [hreport, hlog, List.filterMap_append, List.filterMap_cons, hevent, List.filterMap_nil,
        List.append_nil]
      exact hrun.accounts.push hsequence hmakes.outputPath_iff
    · rw [hreport]
      intro other hother
      rw [Option.elim_some, BuildReport.files_push] at hother
      obtain hbefore | hlast := List.mem_append.mp hother
      · exact hrun.made other hbefore
      · rw [List.mem_singleton.mp hlast]
        exact hmakes

theorem keepsBooks_foldlM_take {stops : List Stop} (hrun : run.KeepsBooks miner.options job)
    (h : stops.foldlM (take miner job) run = .ok next) : next.KeepsBooks miner.options job :=
  foldlM_keeps (fun _ _ _ _ hrun h => keepsBooks_take hrun h) hrun h

/-- A run keeps its books wherever it is led, also among files that it has made itself. -/
theorem keepsBooks_all {input : Text} (hrun : run.KeepsBooks miner.options job)
    (h : run.all miner job input = .ok next) : next.KeepsBooks miner.options job := by
  obtain ⟨agenda, stops, -, hpasses⟩ := exists_passes_of_all h
  exact keepsBooks_foldlM_take hrun hpasses.foldlM_take

end Run

namespace Miner

/-- In the report of whatever build or count succeeds, the counters agree with the records and with
the directories told of. The names of the documents are in order, so no two documents have one
path. -/
theorem reports_balance (miner : Miner) (fs : FileSystem) (input : Text) :
    (∀ output report, (miner.build fs input output).result = .ok report →
      report.Balances (miner.build fs input output).directories ∧ report.counted = 0 ∧
        report.documents.Nodup ∧
        (report.documents.map Path.last).Pairwise fun a b => a.bytes < b.bytes) ∧
    ∀ counts report, (miner.countTokens fs input).result = .ok (counts, report) →
      report.Balances (miner.countTokens fs input).directories ∧ report.written = 0 ∧
        report.documents = [] := by
  constructor
  · intro output report h
    obtain ⟨prepared, last, -, hall, hbuild, rfl⟩ := exists_run_of_build h
    have hbooks := Run.keepsBooks_all (Run.keepsBooks_start _ _ rfl _ _) hall
    have hincrease := BuildReport.documents_increase hbooks.accounts.increasing hbooks.made
    have hnone : ∀ file ∈ last.report.files, file.status ≠ .counted :=
      fun file hfile => (hbooks.made file hfile).status_ne (Or.inr rfl) (by simp [Job.status])
    rw [hbuild, Outcome.directories_concat rfl]
    refine ⟨hbooks.accounts.balances, hbooks.accounts.tallied_eq_zero hnone, ?_, hincrease⟩
    refine (List.pairwise_map.mp hincrease).imp fun hlt heq => ?_
    rw [heq] at hlt
    exact List.lt_irrefl _ hlt
  · intro counts report h
    obtain ⟨stops, last, -, hfold, hcount, -, rfl⟩ := countTokens_eq_ok h
    have hbooks := Run.keepsBooks_foldlM_take (Run.keepsBooks_start _ _ rfl _ _) hfold
    have hnone : ∀ file ∈ last.report.files, file.status ≠ .written :=
      fun file hfile => (hbooks.made file hfile).status_ne (Or.inl rfl) (by simp [Job.status])
    rw [hcount, Outcome.directories_concat rfl]
    exact ⟨hbooks.accounts.balances, hbooks.accounts.tallied_eq_zero hnone,
      hbooks.accounts.documents_eq_nil hnone⟩

/-- A build into a directory that the walk comes to later finds its own document there, which is one
more file with another extension. A count of the same project finds none. -/
theorem reports_balance_among_documents :
    (∃ report,
      ((ofScripts {}).build smallProject "in".toList "in/q".toList).result = .ok report ∧
      report.files.map (fun file => (file.sequence, file.sourcePath, file.status)) =
        [(2, "in/p/a.sutra".toList, .written), (3, "in/p/b.Sutra".toList, .skippedUnparsable),
          (4, "in/p/c.txt".toList, .skippedNonMatchingExtension),
          (6, "in/q/00000002.txt".toList, .skippedNonMatchingExtension)] ∧
      ((ofScripts {}).build smallProject "in".toList "in/q".toList).directories =
        [(1, "in/p".toList), (5, "in/q".toList)] ∧
      report.Balances
        ((ofScripts {}).build smallProject "in".toList "in/q".toList).directories) ∧
    ∃ counts report,
      ((ofScripts {}).countTokens smallProject "in".toList).result = .ok (counts, report) ∧
      report.entriesVisited = 4 ∧ report.counted = 1 ∧ report.documents = [] ∧
      report.Balances ((ofScripts {}).countTokens smallProject "in".toList).directories := by
  constructor
  · have hok : ((ofScripts {}).build smallProject "in".toList "in/q".toList).result =
        .ok { encoding := {}, entriesVisited := 6, written := 1, skippedUnparsable := 1,
              skippedExtension := 2,
              files :=
                [⟨2, "in/p/a.sutra".toList, .written, some "in/q/00000002.txt".toList⟩,
                  ⟨3, "in/p/b.Sutra".toList, .skippedUnparsable, none⟩,
                  ⟨4, "in/p/c.txt".toList, .skippedNonMatchingExtension, none⟩,
                  ⟨6, "in/q/00000002.txt".toList, .skippedNonMatchingExtension, none⟩] } := by
      decide +kernel
    have hbalances := ((reports_balance (ofScripts {}) smallProject "in".toList).1 _ _ hok).1
    exact ⟨_, hok, rfl, by decide +kernel, hbalances⟩
  · have hcounted : (((ofScripts {}).countTokens smallProject "in".toList).result.map
        fun (_, report) => (report.entriesVisited, report.counted)) = .ok (4, 1) := by
      decide +kernel
    cases hresult : ((ofScripts {}).countTokens smallProject "in".toList).result with
    | error e =>
      rw [hresult] at hcounted
      cases hcounted
    | ok found =>
      obtain ⟨counts, report⟩ := found
      rw [hresult] at hcounted
      obtain ⟨hvisited, hone⟩ := Prod.mk.inj (Except.ok.inj hcounted)
      obtain ⟨hbalances, -, hdocuments⟩ :=
        (reports_balance (ofScripts {}) smallProject "in".toList).2 _ _ hresult
      exact ⟨counts, report, rfl, hvisited, hone, hdocuments, hbalances⟩

end Miner

end TokenCorpus
