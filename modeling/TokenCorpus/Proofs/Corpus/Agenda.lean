import TokenCorpus.Proofs.Corpus.Itinerary

/-!
The walk of a run, one entry after the other.

A run that writes documents into directories still to be walked has no itinerary that could be told
beforehand. It always has an agenda, though: the entries that it knows it has to visit. It visits the
first, and if that is a directory to be entered, puts what the directory holds then before the rest.
Main statement: whatever the file system, a run comes through its agenda, or it ends at the first
entry that cannot be visited.
-/

namespace TokenCorpus

/-- An entry that a walk has still to visit. -/
inductive Pending where
  /-- An entry of the input directory, which lies in `root`. -/
  | project (root : Location) (input : Text) (name : Name)
  /-- An entry of the directory `dir`, which lies `depth` levels below an entry of the input
  directory. -/
  | within (depth : Nat) (dir : Location) (path : Text) (name : Name)
  /-- What a directory holds whose path is too long for a listing. -/
  | unlisted (depth : Nat) (path : Text)

namespace FileSystem

/-- What the walk has to visit in a directory that it enters. -/
def agendaBelow (fs : FileSystem) (depth : Nat) (dir : Location) (path : Text) : List Pending :=
  if Path.isTooLong path then [.unlisted depth path]
  else (fs.names dir).map (.within depth dir path)

/-- What a run over an input directory has to visit when it begins. -/
def agenda (fs : FileSystem) (input : Text) : Except FileError (List Pending) :=
  (fs.findDirectory input).map fun root => (fs.names root).map (.project root input)

theorem agenda_of_findDirectory {fs : FileSystem} {input : Text} {root : Location}
    (h : fs.findDirectory input = .ok root) :
    fs.agenda input = .ok ((fs.names root).map (.project root input)) := by
  rw [agenda, h]
  rfl

end FileSystem

namespace Pending

/-- What the walk comes to when an entry has its turn. A link in the input directory is followed, one
further down only tells whether it counts as a directory. -/
def stop (fs : FileSystem) : Pending → Stop
  | .unlisted depth path => .lost path depth .nameTooLong
  | .within _ dir path name =>
    let entry := Path.join path name.text
    match fs.get? (name :: dir) with
    | some .directory => .directory entry (some (name :: dir))
    | some (.link _) => if fs.isDirectory entry then .directory entry none else .file entry name
    | _ => .file entry name
  | .project root input name =>
    let entry := Path.join input name.text
    if Path.isTooLong entry then .lost entry 0 .nameTooLong
    else
      match fs.get? (name :: root) with
      | some .directory => .directory entry (some (name :: root))
      | some (.link _) =>
        match fs.land .target entry with
        | .ok (.node dir .directory) => .directory entry (some dir)
        | _ => .link entry name
      | some (.file _) => .file entry name
      | none => .lost entry 0 .notFound

/-- How far below an entry of the input directory the entry lies if it is a directory. -/
def depth : Pending → Nat
  | .project .. => 0
  | .within depth .. => depth + 1
  | .unlisted depth _ => depth

/-- What the walk has to visit next because of an entry. -/
def below (fs : FileSystem) (pending : Pending) : List Pending :=
  match (pending.stop fs).entered with
  | some dir => fs.agendaBelow pending.depth dir (pending.stop fs).path
  | none => []

end Pending

namespace Run

variable {base : FileSystem} {miner : Miner} {job : Job}

/-- A run comes from one agenda to another and visits the stops on the way. -/
inductive Passes (miner : Miner) (job : Job) :
    Run base → List Pending → List Stop → Run base → List Pending → Prop where
  | here (run : Run base) (agenda : List Pending) : Passes miner job run agenda [] run agenda
  | visit {run next last : Run base} {pending : Pending} {agenda rest : List Pending}
      {stops : List Stop} (htake : run.take miner job (pending.stop run.fs) = .ok next)
      (hrest : Passes miner job next (pending.below run.fs ++ agenda) stops last rest) :
      Passes miner job run (pending :: agenda) (pending.stop run.fs :: stops) last rest

/-- How a run with an agenda ends: it has visited everything, or it fails at an entry. -/
inductive Ends (miner : Miner) (job : Job) (run : Run base) (agenda : List Pending) :
    Step base → Prop where
  | through {last : Run base} {stops : List Stop}
      (hpasses : Passes miner job run agenda stops last []) : Ends miner job run agenda (.ok last)
  | fails {last : Run base} {stops : List Stop} {pending : Pending} {rest : List Pending}
      {failure : Failure base} (hpasses : Passes miner job run agenda stops last (pending :: rest))
      (htake : last.take miner job (pending.stop last.fs) = .error failure) :
      Ends miner job run agenda (.error failure)

namespace Passes

variable {run middle last : Run base} {agenda between rest : List Pending} {stops : List Stop}

theorem foldlM_take (h : Passes miner job run agenda stops last rest) :
    stops.foldlM (take miner job) run = .ok last := by
  induction h with
  | here => rfl
  | visit htake _ ih =>
    rw [List.foldlM_cons, htake]
    exact ih

theorem append {more : List Stop} (first : Passes miner job run agenda stops middle between)
    (second : Passes miner job middle between more last rest) :
    Passes miner job run agenda (stops ++ more) last rest := by
  induction first with
  | here => exact second
  | visit htake _ ih => exact .visit htake (ih second)

/-- What comes later on the agenda makes no difference until its turn. -/
theorem later (h : Passes miner job run agenda stops last rest) (more : List Pending) :
    Passes miner job run (agenda ++ more) stops last (rest ++ more) := by
  induction h with
  | here => exact .here _ _
  | visit htake _ ih =>
    rw [List.append_assoc] at ih
    exact .visit htake ih

end Passes

namespace Ends

variable {run next : Run base} {agenda : List Pending} {pending : Pending} {result : Step base}

theorem bind {more : List Pending} {onward : Run base → Step base}
    (h : Ends miner job run agenda result)
    (honward : ∀ next, result = .ok next → Ends miner job next more (onward next)) :
    Ends miner job run (agenda ++ more) (result >>= onward) := by
  cases h with
  | fails hpasses htake => exact .fails (hpasses.later more) htake
  | @through middle stops hpasses =>
    have hfirst := hpasses.later more
    have hsecond := honward middle rfl
    change Ends miner job run (agenda ++ more) (onward middle)
    generalize onward middle = result at hsecond ⊢
    cases hsecond with
    | through hrest => exact .through (hfirst.append hrest)
    | fails hrest htake => exact .fails (hfirst.append hrest) htake

/-- A directory that is entered has its turn, and then what it holds. -/
theorem of_entered {path : Text} {dir : Location}
    (hstop : pending.stop run.fs = .directory path (some dir))
    (h : Ends miner job (run.visit.passDirectory path)
      (run.fs.agendaBelow pending.depth dir path) result) : Ends miner job run [pending] result := by
  have htake : run.take miner job (pending.stop run.fs) = .ok (run.visit.passDirectory path) := by
    rw [hstop, take_directory]
  have hbelow : pending.below run.fs = run.fs.agendaBelow pending.depth dir path := by
    rw [Pending.below, hstop]
    rfl
  rw [← hbelow, ← List.append_nil (pending.below run.fs)] at h
  cases h with
  | through hpasses => exact .through (.visit htake hpasses)
  | fails hpasses hfail => exact .fails (.visit htake hpasses) hfail

/-- An entry that is not entered has its turn, and that is all. -/
theorem of_take {stop : Stop} (hstop : pending.stop run.fs = stop) (hentered : stop.entered = none) :
    Ends miner job run [pending] (run.take miner job stop) := by
  subst hstop
  have hbelow : pending.below run.fs = [] := by rw [Pending.below, hentered]
  cases htake : run.take miner job (pending.stop run.fs) with
  | error failure => exact .fails (.here run _) htake
  | ok next =>
    have hpasses : Passes miner job run [pending] [pending.stop run.fs] next
        (pending.below run.fs ++ []) := .visit htake (.here next _)
    rw [hbelow] at hpasses
    exact .through hpasses

theorem foldlM {step : Run base → Name → Step base} {entry : Name → Pending}
    (hstep : ∀ run name, Ends miner job run [entry name] (step run name)) (names : List Name)
    (run : Run base) : Ends miner job run (names.map entry) (names.foldlM step run) := by
  induction names generalizing run with
  | nil => exact .through (.here run [])
  | cons name names ih => exact (hstep run name).bind fun next _ => ih next

end Ends

/-- An entry of a directory below the input directory has its turn, then what it holds. -/
theorem ends_within {depth : Nat} {dir : Location} {path : Text} {name : Name} {run : Run base}
    (hwalk : run.fs.get? (name :: dir) = some .directory → ∀ run' : Run base, run'.fs = run.fs →
      Ends miner job run' (run.fs.agendaBelow (depth + 1) (name :: dir) (Path.join path name.text))
        (walk miner job (depth + 1) (name :: dir) (Path.join path name.text) run')) :
    Ends miner job run [.within depth dir path name]
      (within miner job depth dir path run name) := by
  have hfile (h : (Pending.within depth dir path name).stop run.fs =
      .file (Path.join path name.text) name) :
      Ends miner job run [.within depth dir path name]
        (run.visit.file miner job (Path.join path name.text) name) := by
    rw [← take_file]
    exact .of_take h rfl
  rw [within]
  cases hget : run.fs.get? (name :: dir) with
  | none => exact hfile (by simp only [Pending.stop, hget])
  | some node =>
    cases node with
    | file => exact hfile (by simp only [Pending.stop, hget])
    | directory =>
      have hstop : (Pending.within depth dir path name).stop run.fs =
          .directory (Path.join path name.text) (some (name :: dir)) := by
        simp only [Pending.stop, hget]
      exact .of_entered hstop (hwalk hget _ rfl)
    | link target =>
      simp only
      split
      · next hdirectory =>
        have hstop : (Pending.within depth dir path name).stop run.fs =
            .directory (Path.join path name.text) none := by
          simp only [Pending.stop, hget, hdirectory, ↓reduceIte]
        exact .of_take hstop rfl
      · next hother =>
        refine hfile ?_
        simp only [Pending.stop, hget, hother, Bool.false_eq_true, ↓reduceIte]

theorem ends_walk (depth : Nat) (dir : Location) (path : Text) (run : Run base) :
    Ends miner job run (run.fs.agendaBelow depth dir path) (walk miner job depth dir path run) := by
  -- The recursion is on how much deeper directories can lie.
  induction hn : base.height - dir.length using Nat.strongRecOn generalizing depth dir path run with
  | ind n ih =>
    rw [walk_eq_within, FileSystem.agendaBelow]
    split
    · have hends : Ends miner job run [.unlisted depth path]
          (run.take miner job (.lost path depth .nameTooLong)) := .of_take rfl rfl
      exact hends
    · refine Ends.foldlM (fun run name => ends_within fun hget run' hrun' => ?_) _ run
      have hlt := length_lt_height run hget
      rw [← hrun']
      refine ih _ ?_ _ _ _ _ rfl
      rw [← hn, List.length_cons]
      omega

theorem ends_project (root : Location) (input : Text) (run : Run base) (name : Name) :
    Ends miner job run [.project root input name] (project miner job root input run name) := by
  by_cases hlong : Path.isTooLong (Path.join input name.text)
  · rw [project, if_pos hlong]
    have hends : Ends miner job run [.project root input name]
        (run.take miner job (.lost (Path.join input name.text) 0 .nameTooLong)) :=
      .of_take (by rw [Pending.stop, if_pos hlong]) rfl
    exact hends
  cases hget : run.fs.get? (name :: root) with
  | none =>
    have hget' : run.visit.fs.get? (name :: root) = none := hget
    rw [project, if_neg hlong, hget']
    have hstop : (Pending.project root input name).stop run.fs =
        .lost (Path.join input name.text) 0 .notFound := by
      simp only [Pending.stop, hlong, hget, Bool.false_eq_true, ↓reduceIte]
    exact .of_take hstop rfl
  | some node =>
    have hget' : run.visit.fs.get? (name :: root) = some node := hget
    cases node with
    | file =>
      rw [project, if_neg hlong, hget', ← take_file]
      refine .of_take ?_ rfl
      simp only [Pending.stop, hlong, hget, Bool.false_eq_true, ↓reduceIte]
    | directory =>
      rw [project, if_neg hlong, hget']
      refine .of_entered ?_ (ends_walk 0 _ _ _)
      simp only [Pending.stop, hlong, hget, Bool.false_eq_true, ↓reduceIte]
    | link target =>
      rw [project_link run hget hlong]
      split
      · next dir hland =>
        refine .of_entered ?_ (ends_walk 0 _ _ _)
        simp only [Pending.stop, hlong, hget, hland, Bool.false_eq_true, ↓reduceIte]
      · next hother =>
        refine .of_take ?_ rfl
        simp only [Pending.stop, hlong, hget, Bool.false_eq_true, ↓reduceIte]

/-- A run over an input directory comes through the agenda, or fails at an entry. -/
theorem ends_all {run : Run base} {input : Text} {agenda : List Pending}
    (h : run.fs.agenda input = .ok agenda) : Ends miner job run agenda (run.all miner job input) := by
  rw [FileSystem.agenda] at h
  rw [all]
  cases hroot : run.fs.findDirectory input with
  | error e => simp [hroot, Except.map] at h
  | ok root =>
    simp only [hroot, Except.map, Except.ok.injEq] at h
    rw [← h]
    exact Ends.foldlM (ends_project root input) _ run

theorem exists_passes_of_all {run last : Run base} {input : Text}
    (h : run.all miner job input = .ok last) :
    ∃ agenda stops, run.fs.agenda input = .ok agenda ∧
      Passes miner job run agenda stops last [] := by
  cases hroot : run.fs.findDirectory input with
  | error e => simp [all, hroot, fail] at h
  | ok root =>
    have hagenda := FileSystem.agenda_of_findDirectory hroot
    have hends : Ends miner job run _ (run.all miner job input) := ends_all hagenda
    rw [h] at hends
    cases hends with
    | through hpasses => exact ⟨_, _, hagenda, hpasses⟩

end Run

end TokenCorpus
