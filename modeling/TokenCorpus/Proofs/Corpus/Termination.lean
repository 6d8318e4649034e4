import Mathlib.Logic.Hydra
import Mathlib.Tactic.Abel
import TokenCorpus.Proofs.Corpus.Outcomes
import TokenCorpus.Proofs.Corpus.Turns

/-!
Every build ends.

A build makes documents, and it may have to visit them: the directory for documents may lie in the
input directory, and links there may lead to it again and again. The entries that are left to be
visited are no measure of what is left to do, then. But no turn makes a directory, so an entry that
has its turn makes way for entries with less room below them. Main statement: a build comes through
its agenda or is ended at one of its entries, after a number of turns that is bounded by what was
there before. What ends it is an error, or a panic if the names of documents are to be too wide.
-/

namespace TokenCorpus

open FileSystem (GrowsBy FileIn not_fileIn mem_names_iff names_nodup)

/-- How many levels of directories can lie below an entry, where no directory lies deeper than
`height`. -/
def Pending.room (height : Nat) : Pending → Nat
  | project .. => height + 1
  | within _ dir _ _ => height - dir.length
  | unlisted .. => 0

namespace Run

variable {base : FileSystem} {miner : Miner} {job : Job}

/-- What an entry puts on the agenda has less room below it than the entry. -/
theorem room_lt_of_mem_below {run : Run base} {pending later : Pending}
    (h : later ∈ pending.below run.fs) : later.room base.height < pending.room base.height := by
  obtain ⟨dir, hentered, hlater⟩ := Pending.exists_of_mem_below h
  cases pending with
  | unlisted => cases hentered
  | project =>
    obtain ⟨depth, path, rfl⟩ | ⟨depth, path, name, rfl⟩ := hlater
    · exact Nat.succ_pos _
    · exact Nat.lt_succ_of_le (Nat.sub_le _ _)
  | within =>
    obtain ⟨rfl, hget⟩ := Pending.entered_within hentered
    have hlt := run.length_lt_height hget
    obtain ⟨depth, path, rfl⟩ | ⟨depth, path, name, rfl⟩ := hlater
    · exact Nat.sub_pos_of_lt hlt
    · exact Nat.sub_succ_lt_self _ _ hlt

/-- A run with an agenda gives the first entry on it its turn. -/
inductive Advances (miner : Miner) (job : Job) :
    Run base × List Pending → Run base × List Pending → Prop where
  | turn {run next : Run base} {pending : Pending} (agenda : List Pending)
      (htake : run.take miner job (pending.stop run.fs) = .ok next) :
      Advances miner job (run, pending :: agenda) (next, pending.below run.fs ++ agenda)

/-- No run advances forever, whatever its agenda. -/
theorem advances_wellFounded (miner : Miner) (job : Job) :
    WellFounded fun later earlier : Run base × List Pending =>
      Advances miner job earlier later := by
  -- An entry is replaced by any number of entries with less room.
  let rooms (state : Run base × List Pending) : Multiset Nat :=
    state.2.map (Pending.room base.height)
  refine Subrelation.wf ?_ (InvImage.wf rooms (WellFounded.cutExpand Nat.lt_wfRel.wf))
  rintro _ _ (@⟨run, next, pending, agenda, -⟩)
  refine ⟨(pending.below run.fs).map (Pending.room base.height), pending.room base.height, ?_, ?_⟩
  · intro room hroom
    obtain ⟨later, hlater, rfl⟩ := List.mem_map.mp (Multiset.mem_coe.mp hroom)
    exact room_lt_of_mem_below hlater
  · simp only [rooms, List.map_append, List.map_cons, ← Multiset.coe_add, ← Multiset.cons_coe,
      ← Multiset.singleton_add]
    abel

/-- Visits whatever is on an agenda, and whatever that puts on it. -/
def visitAll (miner : Miner) (job : Job) (run : Run base) (agenda : List Pending) : Step base :=
  match agenda with
  | [] => .ok run
  | pending :: agenda =>
    match htake : run.take miner job (pending.stop run.fs) with
    | .error failure => .error failure
    | .ok next =>
      have : Advances miner job (run, pending :: agenda) (next, pending.below run.fs ++ agenda) :=
        .turn agenda htake
      visitAll miner job next (pending.below run.fs ++ agenda)
termination_by (advances_wellFounded miner job).wrap (run, agenda)
decreasing_by assumption

section Visiting

variable {run next last : Run base} {pending : Pending} {agenda rest : List Pending}

theorem visitAll_nil : visitAll miner job run [] = .ok run := by rw [visitAll]

theorem visitAll_of_ok (htake : run.take miner job (pending.stop run.fs) = .ok next) :
    visitAll miner job run (pending :: agenda) =
      visitAll miner job next (pending.below run.fs ++ agenda) := by
  rw [visitAll]
  split
  · next h =>
    rw [htake] at h
    cases h
  · next h =>
    rw [htake, Except.ok.injEq] at h
    rw [h]

theorem visitAll_of_error {failure : Failure base}
    (htake : run.take miner job (pending.stop run.fs) = .error failure) :
    visitAll miner job run (pending :: agenda) = .error failure := by
  rw [visitAll]
  split
  · next h => rw [← htake, h]
  · next h =>
    rw [htake] at h
    cases h

theorem Passes.visitAll_eq {stops : List Stop} (h : Passes miner job run agenda stops last rest) :
    visitAll miner job run agenda = visitAll miner job last rest := by
  induction h with
  | here => rfl
  | visit htake _ ih => rw [visitAll_of_ok htake, ih]

theorem Ends.visitAll_eq {result : Step base} (h : Ends miner job run agenda result) :
    visitAll miner job run agenda = result := by
  cases h with
  | through hpasses => rw [hpasses.visitAll_eq, visitAll_nil]
  | fails hpasses htake => rw [hpasses.visitAll_eq, visitAll_of_error htake]

/-- A run over an input directory visits all of its agenda. -/
theorem all_eq_visitAll {input : Text} (h : run.fs.agenda input = .ok agenda) :
    run.all miner job input = visitAll miner job run agenda := (ends_all h).visitAll_eq.symm

end Visiting

end Run

/-! ## The number of turns -/

namespace Turn

variable {turns : List Turn} {turn : Turn}

theorem mem_listings {dir : Location} (hturn : turn ∈ turns)
    (h : turn.pending.listed? turn.fs = some dir) :
    (dir, turn.fs.names dir) ∈ turns.filterMap listing? := by
  refine List.mem_filterMap.mpr ⟨turn, hturn, ?_⟩
  rw [listing?, h]
  rfl

theorem exists_of_mem_listings {listing : Location × List Name}
    (h : listing ∈ turns.filterMap listing?) :
    ∃ turn ∈ turns, turn.pending.listed? turn.fs = some listing.1 ∧
      turn.fs.names listing.1 = listing.2 := by
  obtain ⟨turn, hturn, hlists⟩ := List.mem_filterMap.mp h
  obtain ⟨dir, hlisted, rfl⟩ := Option.map_eq_some_iff.mp hlists
  exact ⟨turn, hturn, hlisted, rfl⟩

end Turn

namespace Run

variable {base : FileSystem} {miner : Miner} {job : Job} {Dir : Location → Prop}
  {output input : Text} {out root : Location} {name : Name} {run next last : Run base}
  {agenda rest : List Pending} {turns : List Turn}

/-- A dump makes one file at most in a turn. -/
theorem length_entries_take {stop : Stop} (hout : base.documentDirectory output = .ok out)
    (hrun : run.Grown Dir) (h : run.take miner (.dump output) stop = .ok next) :
    next.fs.entries.length ≤ run.fs.entries.length + 1 := by
  obtain ⟨verdict, -, hsettle⟩ := take_eq_ok h
  have hvisit : run.visit.Grown Dir := hrun
  obtain ⟨tree, name, isDirectory, isFree, -, -, hfs⟩ | ⟨-, hfs⟩ := fs_settle hout hvisit hsettle
  · rw [hfs]
    exact List.length_append.le
  · rw [hfs]
    exact Nat.le_succ _

namespace Turns

theorem grows (hjob : job.WritesIn base Dir) (hrun : run.Grown Dir)
    (h : Turns miner job run agenda turns last rest) : GrowsBy (FileIn Dir) run.fs last.fs :=
  grows_foldlM_take hjob hrun h.foldlM_take

theorem grows_of_mem (hjob : job.WritesIn base Dir) (hrun : run.Grown Dir)
    (h : Turns miner job run agenda turns last rest) {turn : Turn} (hturn : turn ∈ turns) :
    GrowsBy (FileIn Dir) run.fs turn.fs := by
  obtain ⟨before, after, rfl⟩ := List.append_of_mem hturn
  obtain ⟨middle, between, hbefore, hafter⟩ := h.of_append
  cases hafter
  exact hbefore.grows hjob hrun

theorem length_entries (hout : base.documentDirectory output = .ok out) (hrun : run.Grown (· = out))
    (h : Turns miner (.dump output) run agenda turns last rest) :
    last.fs.entries.length ≤ run.fs.entries.length + turns.length := by
  have hjob := Job.writesIn_dump hout
  induction h with
  | here => exact Nat.le_refl _
  | turn htake _ ih =>
    have hone := length_entries_take hout hrun htake
    have hothers := ih (grown_take hjob hrun htake)
    rw [List.length_cons]
    omega

/-- What has its turn lies on a list or in the input directory. -/
theorem isSome_place? (h : Turns miner job run agenda turns last rest) {turn : Turn}
    (hturn : turn ∈ turns) (hinside : turn.pending.isProject = false) :
    turn.pending.place?.isSome := by
  obtain ⟨before, after, rfl⟩ := List.append_of_mem hturn
  obtain ⟨middle, between, -, hafter⟩ := h.of_append
  cases hafter with
  | @turn _ _ _ pending _ _ _ htake =>
    cases pending with
    | within => rfl
    | project => cases hinside
    | unlisted => cases htake

/-- A directory in which no files are made is as it was before. -/
theorem names_eq_of_mem (hjob : job.WritesIn base Dir) (hrun : run.Grown Dir)
    (h : Turns miner job run agenda turns last rest) {turn : Turn} (hturn : turn ∈ turns)
    {dir : Location} (hdir : ¬ Dir dir) : turn.fs.names dir = run.fs.names dir :=
  (h.grows_of_mem hjob hrun hturn).names_eq (not_fileIn hdir)

/-- The turns of one entry of the input directory are no more than what is there, if whatever was
listed is there. -/
theorem length_le_of_there (h : Turns miner job run [.project root input name] turns last rest)
    {fs : FileSystem}
    (hthere : ∀ listing ∈ turns.filterMap Turn.listing?, listing.2 ⊆ fs.names listing.1) :
    turns.length ≤ fs.entries.length + 1 := by
  by_cases hne : turns = []
  · rw [hne]
    exact Nat.zero_le _
  obtain ⟨⟨horder, -⟩, first, others, hturns, hfirst, hinside⟩ := h.inOrder_row hne
  have hnodup : (Pending.places (turns.map Turn.pending)).Nodup := by
    refine (horder.nodup fun listing hlisting => ?_).of_append_left
    obtain ⟨turn, -, -, hnames⟩ := Turn.exists_of_mem_listings hlisting
    rw [← hnames]
    exact names_nodup _ _
  have hsubset : Pending.places (turns.map Turn.pending) ⊆ fs.entries.map Prod.fst := by
    intro place hplace
    have hmem := List.mem_append_left (Pending.places rest) hplace
    obtain ⟨entry, listing, hlisting, rfl⟩ := horder.inside place hmem
    have hentry : entry ∈ listing.2 := by
      rw [← horder.as_listed listing hlisting]
      exact List.mem_filterMap.mpr ⟨_, hmem, Orderly.nameIn?_cons entry listing.1⟩
    obtain ⟨node, hget⟩ := mem_names_iff.mp (hthere listing hlisting hentry)
    exact List.mem_map.mpr ⟨_, (fs.get?_eq_some_iff (List.cons_ne_nil _ _)).mp hget, rfl⟩
  have hlength : (Pending.places (turns.map Turn.pending)).length = others.length := by
    have hplaces : ∀ pending ∈ others.map Turn.pending, pending.place?.isSome := by
      intro pending hpending
      obtain ⟨turn, hturn, rfl⟩ := List.mem_map.mp hpending
      exact h.isSome_place? (hturns ▸ List.mem_cons_of_mem first hturn) (hinside turn hturn)
    rw [hturns, List.map_cons, hfirst, Pending.places_project, Pending.places,
      List.filterMap_length_eq_length.mpr hplaces, List.length_map]
  have hle := (hnodup.subperm hsubset).length_le
  rw [hlength, List.length_map] at hle
  rw [hturns, List.length_cons]
  exact Nat.succ_le_succ hle

/-- A row of turns that never lists the directory for documents. -/
theorem length_le_of_apart (hout : base.documentDirectory output = .ok out)
    (hrun : run.Grown (· = out))
    (h : Turns miner (.dump output) run [.project root input name] turns last rest)
    (hapart : ∀ turn ∈ turns, turn.pending.listed? turn.fs ≠ some out) :
    turns.length ≤ run.fs.entries.length + 1 := by
  have hjob := Job.writesIn_dump hout
  refine h.length_le_of_there fun listing hlisting => ?_
  obtain ⟨turn, hturn, hlisted, hnames⟩ := Turn.exists_of_mem_listings hlisting
  have hne : listing.1 ≠ out := by
    intro heq
    exact hapart turn hturn (heq ▸ hlisted)
  rw [← hnames, h.names_eq_of_mem hjob hrun hturn hne]
  exact List.Subset.refl _

/-- The turns of one entry of the input directory are at most twice as many as what is there. The
directory for documents is listed once, and then nothing is on its list but what was there before
and the documents of the turns so far. -/
theorem length_le_row (hout : base.documentDirectory output = .ok out) (hrun : run.Grown (· = out))
    (h : Turns miner (.dump output) run [.project root input name] turns last rest) :
    turns.length ≤ 2 * (run.fs.entries.length + 1) := by
  have hjob := Job.writesIn_dump hout
  by_cases hlists : ∃ turn ∈ turns, turn.pending.listed? turn.fs = some out
  swap
  · have hle := h.length_le_of_apart hout hrun fun turn hturn hlisted =>
      hlists ⟨turn, hturn, hlisted⟩
    omega
  obtain ⟨turn, hturn, hlisted⟩ := hlists
  have honce := (h.inOrder_row (List.ne_nil_of_mem hturn)).1.1.listed_once
  have hlisting := Turn.mem_listings hturn hlisted
  have hthere : turns.length ≤ turn.fs.entries.length + 1 := by
    refine h.length_le_of_there fun listing hother => ?_
    by_cases heq : listing.1 = out
    · rw [List.inj_on_of_nodup_map honce hother hlisting heq]
      exact List.Subset.refl _
    · obtain ⟨other, hmem, -, hnames⟩ := Turn.exists_of_mem_listings hother
      rw [← hnames, h.names_eq_of_mem hjob hrun hmem heq, h.names_eq_of_mem hjob hrun hturn heq]
      exact List.Subset.refl _
  obtain ⟨before, after, rfl⟩ := List.append_of_mem hturn
  obtain ⟨middle, between, hbefore, hafter⟩ := h.of_append
  have hmiddle := hbefore.length_entries hout hrun
  have hapart : before.length ≤ run.fs.entries.length + 1 := by
    refine hbefore.length_le_of_apart hout hrun fun earlier hearlier hagain => ?_
    rw [List.filterMap_append, List.map_append, List.nodup_append] at honce
    have hfirst := List.mem_map_of_mem (f := Prod.fst) (Turn.mem_listings hearlier hagain)
    have hsecond := List.mem_map_of_mem (f := Prod.fst)
      (Turn.mem_listings (List.mem_cons_self (l := after)) hlisted)
    exact honce.2.2 out hfirst out hsecond rfl
  cases hafter
  simp only at hthere
  omega

/-- The number of turns over some entries of the input directory is bounded. -/
theorem length_add_le {names : List Name} (hout : base.documentDirectory output = .ok out)
    (hrun : run.Grown (· = out))
    (h : Turns miner (.dump output) run (names.map (.project root input)) turns last rest)
    {bound : Nat} (hbound : run.fs.entries.length + 1 ≤ bound) :
    turns.length + bound ≤ 3 ^ names.length * bound := by
  have hjob := Job.writesIn_dump hout
  induction names generalizing run turns bound with
  | nil =>
    cases h
    simp
  | cons name names ih =>
    have hsplit : Turns miner (.dump output) run
      ([.project root input name] ++ names.map (.project root input)) turns last rest := h
    have hpow : 3 ^ (name :: names).length * bound = 3 ^ names.length * (3 * bound) := by
      rw [List.length_cons, Nat.pow_succ, Nat.mul_assoc]
    rw [hpow]
    obtain ⟨left, hleft, -⟩ | ⟨first, others, middle, rfl, hfirst, hothers⟩ := hsplit.split
    · have hrow := hleft.length_le_row hout hrun
      have hone := Nat.le_mul_of_pos_left (3 * bound) (Nat.pow_pos (n := names.length) three_pos)
      omega
    · have hrow := hfirst.length_le_row hout hrun
      have hmiddle := hfirst.length_entries hout hrun
      have hbound' : middle.fs.entries.length + 1 ≤ 3 * bound := by omega
      have hrest := ih (hrun.trans (hfirst.grows hjob hrun)) hothers hbound'
      rw [List.length_append]
      omega

end Turns

end Run

/-! ## The end of a build -/

/-- What a build returns where a run over its agenda has come to a halt: its report if nothing is
left, or the error of the entry whose turn fails. If names are too wide, it panics over the first
script whose number fits. -/
inductive Run.Returns {base : FileSystem} (miner : Miner) (job : Job) (last : Run base) :
    List Pending → Except (Abort BuildError) BuildReport → Prop where
  | report : Returns miner job last [] (.ok last.report)
  | error {pending : Pending} {rest : List Pending} {e : BuildError} {run : Run base}
      (htake : last.take miner job (pending.stop last.fs) = .error ⟨.raised e, run⟩) :
      Returns miner job last (pending :: rest) (.error (.raised e))
  | panic {pending : Pending} {rest : List Pending} {run : Run base} {tree : Node}
      (htake : last.take miner job (pending.stop last.fs) = .error ⟨.panic, run⟩)
      (haccepts : miner.Accepts last.fs (pending.stop last.fs) tree)
      (hfits : fitsWidth (last.sequence + 1) miner.options.sequenceWidth)
      (hwide : maxSequenceWidth < miner.options.sequenceWidth) :
      Returns miner job last (pending :: rest) (.error .panic)

theorem Run.Returns.of_take {base : FileSystem} {miner : Miner} {job : Job} {last : Run base}
    {pending : Pending} {failure : Failure base}
    (htake : last.take miner job (pending.stop last.fs) = .error failure) (rest : List Pending) :
    last.Returns miner job (pending :: rest) (.error failure.cause) := by
  obtain ⟨e | _, run⟩ := failure
  · exact .error htake
  · obtain ⟨_, tree, -, haccepts, hname⟩ := take_eq_panic htake
    obtain ⟨hfits, hwide⟩ := documentName_eq_panic_iff.mp hname
    exact .panic htake haccepts hfits hwide

namespace Miner

variable {miner : Miner} {fs prepared : FileSystem} {input output : Text}
  {agenda : List Pending}

/-- A build that has listed the input directory takes turns until it returns. -/
theorem exists_turns_of_build (hprepare : prepareOutput fs output = (prepared, none))
    (hagenda : prepared.agenda input = .ok agenda) :
    ∃ turns last rest,
      Run.Turns miner (.dump output) (miner.opening prepared input output) agenda turns last rest ∧
      last.Returns miner (.dump output) rest (miner.build fs input output).result := by
  obtain ⟨_, last, hpasses, hbuild⟩ | ⟨_, last, pending, rest, failure, hpasses, htake, hbuild⟩ :=
    build_of_agenda hprepare hagenda
  · obtain ⟨turns, hturns, -⟩ := hpasses.exists_turns
    rw [hbuild]
    exact ⟨turns, last, [], hturns, .report⟩
  · obtain ⟨turns, hturns, -⟩ := hpasses.exists_turns
    rw [hbuild]
    exact ⟨turns, last, _, hturns, .of_take htake rest⟩

/-- Every build ends. Runs advance along a well-founded relation, so that they can be defined by
recursion over what is left to be visited. A build is refused before its first turn, or it visits
its agenda: it gives finitely many entries their turn, one row of turns for each entry of the input
directory, and returns its report or the error of the entry whose turn fails. Only where names are
too wide can it panic instead. -/
theorem build_ends (miner : Miner) (fs : FileSystem) (input output : Text) :
    (∀ base, WellFounded fun later earlier : Run base × List Pending =>
      Run.Advances miner (.dump output) earlier later) ∧
    ((miner.build fs input output).result = .error .panic →
      maxSequenceWidth < miner.options.sequenceWidth) ∧
    ((∃ e, (prepareOutput fs output).2 = some e ∧
        (miner.build fs input output).result = .error (.raised e)) ∨
      ∃ prepared, prepareOutput fs output = (prepared, none) ∧
        ((∃ cause, prepared.findDirectory input = .error cause ∧
            (miner.build fs input output).result =
              .error (.raised (.io .readDirectory input cause))) ∨
          ∃ root agenda turns last rest, prepared.findDirectory input = .ok root ∧
            agenda = (prepared.names root).map (.project root input) ∧
            (miner.opening prepared input output).all miner (.dump output) input =
              (miner.opening prepared input output).visitAll miner (.dump output) agenda ∧
            Run.Turns miner (.dump output) (miner.opening prepared input output) agenda turns last
              rest ∧
            Rows root input (prepared.names root) turns rest ∧
            turns.length < 3 ^ (prepared.names root).length * (prepared.entries.length + 1) ∧
            last.report.entriesVisited = turns.length ∧
            last.Returns miner (.dump output) rest (miner.build fs input output).result)) := by
  refine ⟨fun base => Run.advances_wellFounded miner (.dump output), maxSequenceWidth_lt_of_panic,
    ?_⟩
  rcases hprepare : prepareOutput fs output with ⟨prepared, _ | e⟩
  swap
  · exact Or.inl ⟨e, rfl, by rw [build_of_unprepared hprepare]⟩
  refine Or.inr ⟨prepared, rfl, ?_⟩
  cases hroot : prepared.findDirectory input with
  | error cause => exact Or.inl ⟨cause, rfl, by rw [build_of_unlisted hprepare hroot]⟩
  | ok root =>
    have hagenda := FileSystem.agenda_of_findDirectory hroot
    obtain ⟨out, hout⟩ := prepareOutput_ready hprepare
    have hstart : (miner.opening prepared input output).Grown (· = out) := GrowsBy.refl prepared
    obtain ⟨turns, last, rest, hturns, hreturns⟩ := exists_turns_of_build hprepare hagenda
    refine Or.inr ⟨root, _, turns, last, rest, rfl, rfl, Run.all_eq_visitAll hagenda, hturns,
      hturns.rows, ?_, ?_, hreturns⟩
    · have hbound : turns.length + (prepared.entries.length + 1) ≤
          3 ^ (prepared.names root).length * (prepared.entries.length + 1) :=
        hturns.length_add_le hout hstart (Nat.le_refl _)
      omega
    · have hsequence := Run.sequence_foldlM_take hturns.foldlM_take
      rw [sequence_opening, List.length_map, Nat.zero_add] at hsequence
      exact hsequence

/-- A width to which no number can be padded makes a build panic over its first script: it returns
neither its report nor an error. -/
theorem build_panics :
    let after := (ofScripts { sequenceWidth := 65536 }).build smallProject
      "in".toList "out".toList
    after.result = .error .panic ∧ (∀ report, after.result ≠ .ok report) ∧
      ∀ e, after.result ≠ .error (.raised e) := by
  intro after
  have hpanic : after.result = .error .panic := by decide +kernel
  simp [hpanic]

/-- A project with a link that leads to it. -/
def twiceProject : FileSystem :=
  (projectOf [(⟨"a.txt".toList, by decide⟩, .file (Text.bytes "(x)".toList))] (by decide)).insert
    inputDir ⟨"q".toList, by decide⟩ (by decide) (by decide) (.link "p".toList)

-- A build that makes its documents in the project visits the first of them by way of the link.
example :
    ((ofScripts { extension := "txt".toList }).build twiceProject "in".toList
      "in/p".toList).result.toOption.map BuildReport.entriesVisited = some 5 := by decide +kernel

end Miner

end TokenCorpus
