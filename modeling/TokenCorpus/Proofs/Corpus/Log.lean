import TokenCorpus.Proofs.Corpus.Ledger

/-!
What a run tells while it works.

A run tells of each entry once, with its number and its path, when it has settled what becomes of it.
So the log of a run shows which entries it has visited and for which of them it has made documents.
-/

namespace TokenCorpus

open FileSystem (GrowsBy FileIn)

namespace Event

/-- The number and the path of the entry that an event is about. -/
def visited? : Event → Option (Nat × Text)
  | directory sequence path | otherExtension sequence path | unparsable sequence path _
  | accepted sequence path _ => some (sequence, path)
  | buildStarted .. | buildComplete _ | countStarted _ | countComplete .. => none

/-- The number of the document that has been made. -/
def written? : Event → Option Nat
  | accepted sequence _ .written => some sequence
  | _ => none

theorem written?_eq_some {event : Event} {sequence : Nat} (h : event.written? = some sequence) :
    ∃ path, event = .accepted sequence path .written := by
  cases event with
  | accepted n path status =>
    cases status with
    | written =>
      cases h
      exact ⟨path, rfl⟩
    | counted | skippedUnparsable | skippedNonMatchingExtension => simp [written?] at h
  | _ => simp [written?] at h

end Event

namespace Outcome

variable {α : Type}

/-- The numbers and the paths of the entries visited, as the log tells them. -/
def visited (o : Outcome α) : List (Nat × Text) := o.log.filterMap Event.visited?

/-- The numbers of the documents made, as the log tells them. -/
def written (o : Outcome α) : List Nat := o.log.filterMap Event.written?

theorem visited_concat {fs : FileSystem} {log : List Event} {event : Event}
    {result : Except (Abort BuildError) α} (h : event.visited? = none) :
    Outcome.visited ⟨fs, log ++ [event], result⟩ = log.filterMap Event.visited? := by
  simp [visited, h]

theorem written_concat {fs : FileSystem} {log : List Event} {event : Event}
    {result : Except (Abort BuildError) α} (h : event.written? = none) :
    Outcome.written ⟨fs, log ++ [event], result⟩ = log.filterMap Event.written? := by
  simp [written, h]

end Outcome

/-- What a run tells of the entry with the given number. -/
def Verdict.event (job : Job) (sequence : Nat) (path : Text) : Verdict → Event
  | .directory => .directory sequence path
  | .otherExtension => .otherExtension sequence path
  | .unparsable e => .unparsable sequence path e.detail
  | .accepted _ => .accepted sequence path job.status

theorem Verdict.visited?_event (verdict : Verdict) (job : Job) (sequence : Nat) (path : Text) :
    (verdict.event job sequence path).visited? = some (sequence, path) := by
  cases verdict <;> rfl

/-- An event tells of the stop with the given number. -/
def Miner.Tells (miner : Miner) (job : Job) (fs : FileSystem) (stop : Stop × Nat) (event : Event) :
    Prop :=
  ∃ verdict, miner.judge fs stop.1 = .ok verdict ∧ event = verdict.event job stop.2 stop.1.path

namespace Run

variable {base : FileSystem} {Dir : Location → Prop} {miner : Miner} {job : Job}

theorem settle_log {run next : Run base} {options : BuildOptions} {path : Text} {verdict : Verdict}
    (h : run.settle options job path verdict = .ok next) :
    next.log = run.log ++ [verdict.event job run.sequence path] := by
  cases verdict with
  | directory => cases h; rfl
  | otherExtension => cases h; rfl
  | unparsable => cases h; rfl
  | accepted tree =>
    cases job with
    | tally => cases h; rfl
    | dump output =>
      obtain ⟨-, -, -, -, -, hlog⟩ := writeDocument_eq_ok h
      exact hlog

/-- A run tells of each stop, in their order. -/
theorem log_foldlM_take (hjob : job.WritesIn base Dir) {stops : List Stop} {run last : Run base}
    (hrun : run.Grown Dir) (h : stops.foldlM (take miner job) run = .ok last) :
    ∃ events, last.log = run.log ++ events ∧
      List.Forall₂ (miner.Tells job last.fs) (stops.zipIdx (run.sequence + 1)) events := by
  induction stops generalizing run with
  | nil =>
    cases h
    exact ⟨[], by simp, .nil⟩
  | cons stop stops ih =>
    obtain ⟨next, htake, h⟩ := exists_of_foldlM_cons h
    have hnext := grown_take hjob hrun htake
    obtain ⟨verdict, hjudge, hsettle⟩ := take_eq_ok htake
    have hgrow : GrowsBy (FileIn Dir) run.fs last.fs :=
      (take_grows hjob hrun htake).trans (grows_foldlM_take hjob hnext h)
    obtain ⟨events, hlog, htells⟩ := ih hnext h
    rw [sequence_take htake] at htells
    refine ⟨verdict.event job (run.sequence + 1) stop.path :: events, ?_, ?_⟩
    · rw [hlog, settle_log hsettle, List.append_assoc]
      rfl
    · rw [List.zipIdx_cons]
      exact .cons ⟨verdict, Miner.judge_eq_ok_grows hgrow hjudge, rfl⟩ htells

end Run

namespace Miner

variable {miner : Miner} {job : Job} {fs : FileSystem} {numbered : List (Stop × Nat)}
  {events : List Event}

theorem visited_of_tells (h : List.Forall₂ (miner.Tells job fs) numbered events) :
    events.filterMap Event.visited? = numbered.map fun stop => (stop.2, stop.1.path) := by
  induction h with
  | nil => rfl
  | cons htells _ ih =>
    obtain ⟨verdict, -, rfl⟩ := htells
    rw [List.filterMap_cons, Verdict.visited?_event, List.map_cons, ih]

/-- The numbers of the documents are among those of the stops, in the same order. -/
theorem written_sublist (h : List.Forall₂ (miner.Tells job fs) numbered events) :
    (events.filterMap Event.written?).Sublist (numbered.map Prod.snd) := by
  induction h with
  | nil => exact .slnil
  | @cons stop event numbered events htells _ ih =>
    rw [List.map_cons, List.filterMap_cons]
    cases hwritten : event.written? with
    | none => exact .cons _ ih
    | some sequence =>
      obtain ⟨verdict, -, rfl⟩ := htells
      obtain ⟨path, hevent⟩ := Event.written?_eq_some hwritten
      have hentry := verdict.visited?_event job stop.2 stop.1.path
      rw [hevent] at hentry
      cases hentry
      exact .cons_cons _ ih

theorem written_sublist_numbers (h : List.Forall₂ (miner.Tells job fs) numbered events) :
    (events.filterMap Event.written?).Sublist ((events.filterMap Event.visited?).map Prod.fst) := by
  rw [visited_of_tells h, List.map_map]
  exact written_sublist h

/-- Entries are numbered from one on. -/
theorem numbers_of_tells {stops : List Stop}
    (h : List.Forall₂ (miner.Tells job fs) (stops.zipIdx 1) events) :
    (events.filterMap Event.visited?).map Prod.fst = List.range' 1 stops.length := by
  rw [visited_of_tells h, List.map_map]
  exact List.zipIdx_map_snd 1 stops

theorem mem_written_iff {output : Text}
    (h : List.Forall₂ (miner.Tells (.dump output) fs) numbered events) {sequence : Nat} :
    sequence ∈ events.filterMap Event.written? ↔
      ∃ stop ∈ numbered, stop.2 = sequence ∧
        ∃ tree, miner.judge fs stop.1 = .ok (.accepted tree) := by
  induction h with
  | nil => simp
  | @cons stop event numbered events htells _ ih =>
    obtain ⟨verdict, hjudge, rfl⟩ := htells
    rw [List.exists_mem_cons_iff, hjudge, List.filterMap_cons]
    cases verdict with
    | accepted tree =>
      simp only [Verdict.event, Job.status, Event.written?, List.mem_cons, ih]
      simp [eq_comm]
    | _ => simpa [Verdict.event, Event.written?] using ih

end Miner

end TokenCorpus
