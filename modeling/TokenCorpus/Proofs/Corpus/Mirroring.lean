import TokenCorpus.Proofs.Encoding.Suppression
import TokenCorpus.Proofs.FileSystem.Shape
import TokenCorpus.Proofs.Corpus.Outcomes
import TokenCorpus.Proofs.Corpus.Trails

/-!
Runs that leave literals out.

Two runs go over file systems of the same shape, and their scripts have trees that differ only in the
values of literals. If literals are left out, the runs mirror each other: they come to the same
entries, judge them alike, write the same documents and count the same words. A run may read what it
has written itself; that is the same in both.
-/

namespace TokenCorpus

open FileSystem (GrownAlike SameShape)

/-! ## Entries -/

theorem Path.below_concat (path : Text) (names : List Name) (name : Name) :
    below path (names ++ [name]) = join (below path names) name.text := by
  rw [below, List.foldl_append]
  rfl

namespace FileSystem.SameShape

variable {fs other : FileSystem}

theorem names_eq (h : fs.SameShape other) (dir : Location) : other.names dir = fs.names dir := by
  have himp : ∀ {a b : FileSystem}, a.SameShape b → ∀ name, name ∈ a.names dir →
      name ∈ b.names dir := by
    intro a b hshape name hmem
    obtain ⟨node, hget⟩ := mem_names_iff.mp hmem
    obtain ⟨node', hget', -⟩ := hshape.exists_get? hget
    exact mem_names_iff.mpr ⟨node', hget'⟩
  refine eq_of_increasing (fun name : Name => name.text.bytes) List.lt_irrefl List.lt_trans
    (other.names_pairwise dir) (fs.names_pairwise dir) fun name => ?_
  exact ⟨himp h.symm name, himp h name⟩

theorem agenda_eq (h : fs.SameShape other) (input : Text) : other.agenda input = fs.agenda input := by
  rw [agenda, agenda, h.findDirectory_eq]
  simp only [h.names_eq]

theorem agendaBelow_eq (h : fs.SameShape other) (depth : Nat) (dir : Location) (path : Text) :
    other.agendaBelow depth dir path = fs.agendaBelow depth dir path := by
  rw [agendaBelow, agendaBelow, h.names_eq]

theorem stop_eq (h : fs.SameShape other) (pending : Pending) :
    pending.stop other = pending.stop fs := by
  cases pending with
  | unlisted => rfl
  | within depth dir path name =>
    obtain hsame | ⟨content, content', hget, hget'⟩ := h.get?_eq_or_files (name :: dir)
    · simp only [Pending.stop, hsame, h.isDirectory_eq]
    · simp only [Pending.stop, hget, hget']
  | project root input name =>
    obtain hsame | ⟨content, content', hget, hget'⟩ := h.get?_eq_or_files (name :: root)
    · simp only [Pending.stop, hsame]
      have halike := h.land_alike .target (Path.join input name.text)
      generalize fs.land .target (Path.join input name.text) = found at halike ⊢
      generalize other.land .target (Path.join input name.text) = found' at halike ⊢
      cases halike with
      | same => rfl
      | files => rfl
    · simp only [Pending.stop, hget, hget']

theorem below_eq (h : fs.SameShape other) (pending : Pending) :
    pending.below other = pending.below fs := by
  rw [Pending.below, Pending.below, h.stop_eq]
  simp only [h.agendaBelow_eq]

end FileSystem.SameShape

namespace Pending

variable {fs : FileSystem} {input : Text}

/-- Names lead from the input directory to an entry, the last of them the name of the entry itself. -/
def LiesBelow (input : Text) (pending : Pending) : Prop :=
  ∀ fs : FileSystem, ∃ names, (pending.stop fs).path = Path.below input names ∧
    ∀ name, (pending.stop fs).name? = some name → ∃ above, names = above ++ [name]

theorem stop_within (fs : FileSystem) (depth : Nat) (dir : Location) (path : Text) (name : Name) :
    ((within depth dir path name).stop fs).path = Path.join path name.text ∧
      ∀ other, ((within depth dir path name).stop fs).name? = some other → other = name := by
  simp only [stop]
  split
  · simp [Stop.path, Stop.name?]
  · split <;> simp [Stop.path, Stop.name?, eq_comm]
  · simp [Stop.path, Stop.name?, eq_comm]

theorem stop_project (fs : FileSystem) (root : Location) (input : Text) (name : Name) :
    ((project root input name).stop fs).path = Path.join input name.text ∧
      ∀ other, ((project root input name).stop fs).name? = some other → other = name := by
  simp only [stop]
  split
  · simp [Stop.path, Stop.name?]
  · split
    · simp [Stop.path, Stop.name?]
    · split <;> simp [Stop.path, Stop.name?, eq_comm]
    · simp [Stop.path, Stop.name?, eq_comm]
    · simp [Stop.path, Stop.name?]

theorem liesBelow_agendaBelow {depth : Nat} {dir : Location} {names : List Name} :
    ∀ pending ∈ fs.agendaBelow depth dir (Path.below input names), pending.LiesBelow input := by
  intro pending hmem fs'
  rw [FileSystem.agendaBelow] at hmem
  split at hmem
  · obtain rfl := List.mem_singleton.mp hmem
    exact ⟨names, rfl, by simp [stop, Stop.name?]⟩
  · obtain ⟨name, -, rfl⟩ := List.mem_map.mp hmem
    obtain ⟨hpath, hname⟩ := stop_within fs' depth dir (Path.below input names) name
    refine ⟨names ++ [name], ?_, fun other hother => ⟨names, by rw [hname other hother]⟩⟩
    rw [hpath, Path.below_concat]

theorem liesBelow_agenda {agenda : List Pending} (h : fs.agenda input = .ok agenda) :
    ∀ pending ∈ agenda, pending.LiesBelow input := by
  rw [FileSystem.agenda] at h
  cases hroot : fs.findDirectory input with
  | error e => simp [hroot, Except.map] at h
  | ok root =>
    simp only [hroot, Except.map, Except.ok.injEq] at h
    rw [← h]
    intro pending hmem fs'
    obtain ⟨name, -, rfl⟩ := List.mem_map.mp hmem
    obtain ⟨hpath, hname⟩ := stop_project fs' root input name
    exact ⟨[name], hpath, fun other hother => ⟨[], by rw [hname other hother]; rfl⟩⟩

theorem LiesBelow.below {pending : Pending} (h : pending.LiesBelow input) :
    ∀ next ∈ pending.below fs, next.LiesBelow input := by
  obtain ⟨names, hpath, -⟩ := h fs
  rw [Pending.below, hpath]
  split
  · exact liesBelow_agendaBelow
  · simp

theorem LiesBelow.exists_above {pending : Pending} (h : pending.LiesBelow input) (fs : FileSystem)
    (name : Name) (hname : (pending.stop fs).name? = some name) :
    ∃ above, (pending.stop fs).path = Path.below input (above ++ [name]) := by
  obtain ⟨names, hpath, hlast⟩ := h fs
  obtain ⟨above, rfl⟩ := hlast name hname
  exact ⟨above, hpath⟩

end Pending

/-! ## Verdicts -/

/-- Two verdicts ask for the same, if literals are left out. -/
inductive Verdict.Alike : Verdict → Verdict → Prop where
  | directory : Alike .directory .directory
  | otherExtension : Alike .otherExtension .otherExtension
  | unparsable (error error' : ParseError) : Alike (.unparsable error) (.unparsable error')
  | accepted {tree tree' : Node} (h : tree.SameButLiterals tree') :
      Alike (.accepted tree) (.accepted tree')

namespace Miner

variable {miner : Miner} {fs other : FileSystem} {input : Text}

/-- The tree of a file with the given contents, if it has one. -/
def tree? (miner : Miner) (path : Text) (content : Bytes) : Option Node :=
  ((Utf8.read path content).bind (miner.parser path)).toOption

/-- What can be read as a script below the input directory has trees that differ only in the values of
literals, or no tree in both file systems. -/
def ScriptsAlike (miner : Miner) (input : Text) (fs other : FileSystem) : Prop :=
  ∀ above name content content', miner.options.accepts (Name.text name) →
    fs.read (Path.below input (above ++ [name])) = .ok content →
    other.read (Path.below input (above ++ [name])) = .ok content' →
    Option.Rel Node.SameButLiterals (miner.tree? (Path.below input (above ++ [name])) content)
      (miner.tree? (Path.below input (above ++ [name])) content')

/-- Two judgements are the same error or verdicts that ask for the same. -/
inductive JudgedAlike : Except BuildError Verdict → Except BuildError Verdict → Prop where
  | error (e : BuildError) : JudgedAlike (.error e) (.error e)
  | ok {verdict verdict' : Verdict} (h : verdict.Alike verdict') :
      JudgedAlike (.ok verdict) (.ok verdict')

theorem JudgedAlike.refl (judged : Except BuildError Verdict) : JudgedAlike judged judged := by
  cases judged with
  | error e => exact .error e
  | ok verdict =>
    cases verdict with
    | directory => exact .ok .directory
    | otherExtension => exact .ok .otherExtension
    | unparsable e => exact .ok (.unparsable e e)
    | accepted tree => exact .ok (.accepted rfl)

theorem judgeFile_alike {base base' : FileSystem} (h : GrownAlike base base' fs other)
    (hscripts : miner.ScriptsAlike input base base') (above : List Name) (name : Name) :
    JudgedAlike (miner.judgeFile fs (Path.below input (above ++ [name])) name)
      (miner.judgeFile other (Path.below input (above ++ [name])) name) := by
  by_cases haccepts : miner.options.accepts name.text
  · obtain hsame | ⟨content, content', hbase, hbase', hread, hread'⟩ :=
      h.read_cases (Path.below input (above ++ [name]))
    · have hjudge : miner.judgeFile other (Path.below input (above ++ [name])) name =
          miner.judgeFile fs (Path.below input (above ++ [name])) name := by
        rw [judgeFile, judgeFile, hsame]
      rw [hjudge]
      exact .refl _
    · have htrees := hscripts above name content content' haccepts hbase hbase'
      simp only [tree?] at htrees
      simp only [judgeFile, haccepts, hread, hread', Bool.not_true, Bool.false_eq_true, ↓reduceIte]
      generalize (Utf8.read _ content).bind _ = parsed at htrees ⊢
      generalize (Utf8.read _ content').bind _ = parsed' at htrees ⊢
      cases parsed with
      | error e =>
        cases parsed' with
        | error e' => exact .ok (.unparsable e e')
        | ok tree' => cases htrees
      | ok tree =>
        cases parsed' with
        | error e' => cases htrees
        | ok tree' =>
          cases htrees with
          | some hsame => exact .ok (.accepted hsame)
  · simp only [judgeFile, haccepts, Bool.not_false, ↓reduceIte]
    exact .refl _

theorem judge_alike {base base' : FileSystem} (h : GrownAlike base base' fs other)
    (hscripts : miner.ScriptsAlike input base base') {stop : Stop}
    (hstop : ∀ name, stop.name? = some name →
      ∃ above, stop.path = Path.below input (above ++ [name])) :
    JudgedAlike (miner.judge fs stop) (miner.judge other stop) := by
  have hfile : ∀ name, stop.name? = some name →
      JudgedAlike (miner.judgeFile fs stop.path name) (miner.judgeFile other stop.path name) := by
    intro name hname
    obtain ⟨above, hpath⟩ := hstop name hname
    rw [hpath]
    exact judgeFile_alike h hscripts above name
  cases stop with
  | directory => exact .refl _
  | lost => exact .refl _
  | file path name => exact hfile name rfl
  | link path name =>
    have halike := h.shape.land_alike .target path
    simp only [judge]
    generalize fs.land .target path = found at halike ⊢
    generalize other.land .target path = found' at halike ⊢
    cases halike with
    | files => exact hfile name rfl
    | same =>
      cases found with
      | error e => exact .refl _
      | ok landing =>
        cases landing with
        | free => exact .refl _
        | node => exact hfile name rfl

end Miner

/-! ## Runs -/

namespace Run

variable {base base' : FileSystem} {miner : Miner} {job : Job} {input : Text}

/-- Two runs can mirror each other: literals are left out, the scripts are alike, and if documents are
written, there is a directory for them. -/
structure Matched (miner : Miner) (job : Job) (input : Text) (base base' : FileSystem) : Prop where
  literals_out : miner.options.encoding.includeLiterals = false
  scripts_alike : miner.ScriptsAlike input base base'
  writes : job.WritesIn base fun _ => True
  writes' : job.WritesIn base' fun _ => True

/-- Two runs that have come equally far: they have made the same files, and they tell the same. -/
structure Mirrors (run : Run base) (run' : Run base') : Prop where
  fs_alike : GrownAlike base base' run.fs run'.fs
  report_eq : run'.report = run.report
  counts_eq : run'.counts = run.counts
  documents : ∀ path ∈ run.report.documents, ∃ content,
    run.fs.read path = .ok content ∧ run'.fs.read path = .ok content

/-- Two steps end in the same way, or both go on, and leave runs that mirror each other. -/
inductive StepsAlike : Step base → Step base' → Prop where
  | error {failure : Failure base} {failure' : Failure base'}
      (hruns : failure.run.Mirrors failure'.run) (hcause : failure'.cause = failure.cause) :
      StepsAlike (.error failure) (.error failure')
  | ok {run : Run base} {run' : Run base'} (hruns : run.Mirrors run') :
      StepsAlike (.ok run) (.ok run')

namespace Mirrors

variable {run : Run base} {run' : Run base'}

theorem sequence_eq (h : run.Mirrors run') : run'.sequence = run.sequence := by
  rw [sequence, sequence, h.report_eq]

theorem visit (h : run.Mirrors run') : run.visit.Mirrors run'.visit :=
  ⟨h.fs_alike, congrArg BuildReport.visit h.report_eq, h.counts_eq, h.documents⟩

/-- Runs mirror each other over an entry without a document. -/
theorem record (h : run.Mirrors run') (path : Text) (status : FileStatus) :
    (run.record path status none).Mirrors (run'.record path status none) := by
  refine ⟨h.fs_alike, ?_, h.counts_eq, ?_⟩
  · rw [Run.record, Run.record, h.sequence_eq, h.report_eq]
  · intro document hmem
    rw [Run.record, BuildReport.documents_push, Option.toList_none, List.append_nil] at hmem
    exact h.documents document hmem

theorem tell (h : run.Mirrors run') (event event' : Event) :
    (run.tell event).Mirrors (run'.tell event') :=
  ⟨h.fs_alike, h.report_eq, h.counts_eq, h.documents⟩

theorem count (h : run.Mirrors run') {counts counts' : TokenCounts} (heq : counts' = counts) :
    ({ run with counts := counts } : Run base).Mirrors { run' with counts := counts' } :=
  ⟨h.fs_alike, h.report_eq, heq, h.documents⟩

/-- Runs mirror each other over a document with the same text. -/
theorem writeDocument (h : run.Mirrors run') {output : Text} {out out' : Location}
    (hout : base.documentDirectory output = .ok out)
    (hout' : base'.documentDirectory output = .ok out') {options : BuildOptions} (path : Text)
    {tree tree' : Node} (htext : tree'.encoding options.encoding = tree.encoding options.encoding) :
    StepsAlike (run.writeDocument options output path tree)
      (run'.writeDocument options output path tree') := by
  cases hname : documentName run.sequence options.sequenceWidth with
  | error cause =>
    have hname' := hname
    rw [← h.sequence_eq] at hname'
    rw [writeDocument_of_unnamed run output path tree hname,
      writeDocument_of_unnamed run' output path tree' hname']
    exact .error h rfl
  | ok name =>
    have hname' := hname
    rw [← h.sequence_eq] at hname'
    obtain ⟨e, hcreate, hcreate'⟩ | ⟨dir, entry, isDirectory, isFree, isDirectory', isFree', hcreate,
      hcreate'⟩ := h.fs_alike.shape.createFile_alike (Path.join output name)
        (tree.encoding options.encoding).bytes
    · rw [← htext] at hcreate'
      rw [writeDocument_of_refused run path hname hcreate,
        writeDocument_of_refused run' path hname' hcreate']
      exact .error h (by rw [h.sequence_eq])
    · have hread := read_document ((FileSystem.documentDirectory_grows h.fs_alike.grown).mpr hout)
        hname hcreate
      have hread' := read_document ((FileSystem.documentDirectory_grows h.fs_alike.grown').mpr hout')
        hname hcreate'
      rw [← htext] at hcreate'
      obtain ⟨next, hwrite, hfs, hreport, hcounts⟩ :=
        writeDocument_of_createFile run path hname hcreate
      obtain ⟨next', hwrite', hfs', hreport', hcounts'⟩ :=
        writeDocument_of_createFile run' path hname' hcreate'
      have hnew : FileSystem.FileIn (fun _ => True) (entry :: dir)
          (.file (tree.encoding options.encoding).bytes) :=
        ⟨entry, dir, _, trivial, rfl, rfl⟩
      rw [hwrite, hwrite']
      refine .ok ⟨?_, ?_, ?_, ?_⟩
      · rw [hfs, hfs', htext]
        exact h.fs_alike.insert isDirectory isFree isDirectory' isFree' _
      · rw [hreport, hreport', h.report_eq, h.sequence_eq]
      · rw [hcounts, hcounts', h.counts_eq]
      · rw [hreport, hfs, hfs', htext, BuildReport.documents_push]
        intro document hmem
        obtain hold | hlast := List.mem_append.mp hmem
        · obtain ⟨content, hcontent, hcontent'⟩ := h.documents document hold
          exact ⟨content, FileSystem.read_grows (.insert run.fs isDirectory isFree hnew) hcontent,
            FileSystem.read_grows (.insert run'.fs isDirectory' isFree' hnew) hcontent'⟩
        · obtain rfl := List.mem_singleton.mp hlast
          exact ⟨_, hread, hread'⟩

theorem settle (h : run.Mirrors run') (hmatched : Matched miner job input base base') (path : Text)
    {verdict verdict' : Verdict} (hverdict : verdict.Alike verdict') :
    StepsAlike (run.settle miner.options job path verdict)
      (run'.settle miner.options job path verdict') := by
  cases hverdict with
  | directory => exact .ok (h.tell _ _)
  | otherExtension => exact .ok ((h.tell _ _).record path _)
  | unparsable e e' => exact .ok ((h.tell _ _).record path _)
  | @accepted tree tree' hsame =>
    cases job with
    | tally =>
      have hcounts : countTokens run'.counts miner.options.encoding tree' =
          countTokens run.counts miner.options.encoding tree := by
        rw [countTokens, countTokens, hsame.forTokens_eq hmatched.literals_out, h.counts_eq]
      exact .ok (((h.count hcounts).tell _ _).record path _)
    | dump output =>
      obtain ⟨out, hout, -⟩ := hmatched.writes
      obtain ⟨out', hout', -⟩ := hmatched.writes'
      exact h.writeDocument hout hout' path (hsame.encoding_eq hmatched.literals_out).symm

theorem take (h : run.Mirrors run') (hmatched : Matched miner job input base base') {stop : Stop}
    (hstop : ∀ name, stop.name? = some name →
      ∃ above, stop.path = Path.below input (above ++ [name])) :
    StepsAlike (run.take miner job stop) (run'.take miner job stop) := by
  have hjudged := Miner.judge_alike h.fs_alike hmatched.scripts_alike hstop
  rw [Run.take, Run.take]
  generalize miner.judge run.fs stop = judged at hjudged ⊢
  generalize miner.judge run'.fs stop = judged' at hjudged ⊢
  cases hjudged with
  | error e => exact .error h.visit rfl
  | ok hverdict => exact h.visit.settle hmatched stop.path hverdict

end Mirrors

variable {run last : Run base} {run' : Run base'} {agenda rest : List Pending} {stops : List Stop}

/-- A run that mirrors another comes through the same stops. -/
theorem Passes.mirrored (hpasses : Passes miner job run agenda stops last rest)
    (h : run.Mirrors run') (hmatched : Matched miner job input base base')
    (hbelow : ∀ pending ∈ agenda, pending.LiesBelow input) :
    ∃ last', Passes miner job run' agenda stops last' rest ∧ last.Mirrors last' ∧
      ∀ pending ∈ rest, pending.LiesBelow input := by
  induction hpasses generalizing run' with
  | here => exact ⟨run', .here _ _, h, hbelow⟩
  | @visit run next last pending agenda rest stops htake hrest ih =>
    have hpending := hbelow pending List.mem_cons_self
    have hsteps := h.take hmatched (hpending.exists_above run.fs)
    rw [htake] at hsteps
    generalize htake' : run'.take miner job (pending.stop run.fs) = step' at hsteps
    cases hsteps with
    | @ok _ next' hnext =>
      have hlater : ∀ later ∈ pending.below run.fs ++ agenda, later.LiesBelow input := by
        intro later hmem
        obtain hmem | hmem := List.mem_append.mp hmem
        · exact hpending.below later hmem
        · exact hbelow later (List.mem_cons_of_mem _ hmem)
      obtain ⟨last', hpasses', hlast⟩ := ih hnext hlater
      rw [← h.fs_alike.shape.stop_eq] at htake' ⊢
      rw [← h.fs_alike.shape.below_eq] at hpasses'
      exact ⟨last', .visit htake' hpasses', hlast⟩

/-- A run that mirrors another ends alike. -/
theorem Ends.mirrored {result : Step base} (hends : Ends miner job run agenda result)
    (h : run.Mirrors run') (hmatched : Matched miner job input base base')
    (hbelow : ∀ pending ∈ agenda, pending.LiesBelow input) :
    ∃ result', Ends miner job run' agenda result' ∧ StepsAlike result result' := by
  cases hends with
  | through hpasses =>
    obtain ⟨last', hpasses', hlast, -⟩ := hpasses.mirrored h hmatched hbelow
    exact ⟨_, .through hpasses', .ok hlast⟩
  | @fails last stops pending rest failure hpasses htake =>
    obtain ⟨last', hpasses', hlast, hrest⟩ := hpasses.mirrored h hmatched hbelow
    have hpending := hrest pending List.mem_cons_self
    have hsteps := hlast.take hmatched (hpending.exists_above last.fs)
    rw [htake] at hsteps
    generalize htake' : last'.take miner job (pending.stop last.fs) = step' at hsteps
    cases hsteps with
    | @error _ failure' hruns herror =>
      rw [← hlast.fs_alike.shape.stop_eq] at htake'
      exact ⟨_, .fails hpasses' htake', .error hruns herror⟩

/-- What is to come after a first part of the agenda decides how a run ends. -/
theorem Passes.ends {result : Step base} (hpasses : Passes miner job run agenda stops last rest)
    (hends : Ends miner job run agenda result) : Ends miner job last rest result := by
  induction hpasses with
  | here => exact hends
  | visit htake _ ih =>
    apply ih
    cases hends with
    | through hpasses =>
      cases hpasses with
      | visit htake' hrest =>
        rw [htake, Except.ok.injEq] at htake'
        exact htake' ▸ .through hrest
    | fails hpasses hfail =>
      cases hpasses with
      | here =>
        rw [htake] at hfail
        cases hfail
      | visit htake' hrest =>
        rw [htake, Except.ok.injEq] at htake'
        exact htake' ▸ .fails hrest hfail

/-- A run ends in one way only. -/
theorem Ends.unique {result other : Step base} (hends : Ends miner job run agenda result)
    (hends' : Ends miner job run agenda other) : other = result := by
  cases hends with
  | through hpasses =>
    cases hpasses.ends hends' with
    | through hrest => cases hrest; rfl
    | fails hrest => cases hrest
  | fails hpasses htake =>
    cases hpasses.ends hends' with
    | through hrest =>
      cases hrest with
      | visit htake' =>
        rw [htake] at htake'
        cases htake'
    | fails hrest htake' =>
      cases hrest with
      | here => rw [← htake, ← htake']
      | visit htake'' =>
        rw [htake] at htake''
        cases htake''

/-- Runs over an input directory mirror each other to their ends. -/
theorem Mirrors.all (h : run.Mirrors run') (hmatched : Matched miner job input base base') :
    StepsAlike (run.all miner job input) (run'.all miner job input) := by
  cases hagenda : run.fs.agenda input with
  | error e =>
    cases hroot : run.fs.findDirectory input with
    | ok root =>
      rw [FileSystem.agenda, hroot] at hagenda
      cases hagenda
    | error e =>
      have hroot' := (h.fs_alike.shape.findDirectory_eq input).trans hroot
      rw [Run.all, Run.all, hroot, hroot']
      exact .error h rfl
  | ok agenda =>
    have hagenda' := (h.fs_alike.shape.agenda_eq input).trans hagenda
    obtain ⟨result', hends', halike⟩ :=
      (ends_all hagenda).mirrored h hmatched (Pending.liesBelow_agenda hagenda)
    rw [hends'.unique (ends_all hagenda')]
    exact halike

end Run

end TokenCorpus
