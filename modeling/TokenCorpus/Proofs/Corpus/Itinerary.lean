import Mathlib.Data.List.Basic
import TokenCorpus.Proofs.Corpus.Steps

/-!
The itinerary of a run.

The stops of a walk can be listed before the run begins, on the file system as it is then. The run
visits exactly these, one after the other, unless the walk enters a directory in which the run makes
documents. Whether a link in the input directory leads to a file is left to the visit, since the file
may be a document of the same run.
-/

namespace TokenCorpus

open FileSystem (GrowsBy FileIn not_fileIn)

section Folding

variable {α β ε σ : Type}

/-- A fold over rows in a row is a fold of folds. -/
theorem foldlM_flatMap {step : σ → β → Except ε σ} (rows : α → List β) (l : List α) (s : σ) :
    (l.flatMap rows).foldlM step s = l.foldlM (fun s a => (rows a).foldlM step s) s := by
  induction l generalizing s with
  | nil => rfl
  | cons a l ih => simp [ih]

theorem exists_of_foldlM_cons {step : σ → α → Except ε σ} {a : α} {l : List α} {s t : σ}
    (h : (a :: l).foldlM step s = .ok t) :
    ∃ middle, step s a = .ok middle ∧ l.foldlM step middle = .ok t := by
  rw [List.foldlM_cons] at h
  cases hfirst : step s a with
  | error e => simp [hfirst, bind, Except.bind] at h
  | ok middle =>
    rw [hfirst] at h
    exact ⟨middle, rfl, h⟩

/-- A fold that fails has come through a first part of its list. -/
theorem foldlM_eq_error {step : σ → α → Except ε σ} {l : List α} {s : σ} {e : ε}
    (h : l.foldlM step s = .error e) :
    ∃ before a rest middle, l = before ++ a :: rest ∧ before.foldlM step s = .ok middle ∧
      step middle a = .error e := by
  induction l generalizing s with
  | nil => cases h
  | cons a l ih =>
    rw [List.foldlM_cons] at h
    cases hfirst : step s a with
    | error e' =>
      rw [hfirst] at h
      cases h
      exact ⟨[], a, l, s, rfl, rfl, hfirst⟩
    | ok next =>
      rw [hfirst] at h
      obtain ⟨before, b, rest, middle, rfl, hbefore, hfail⟩ := ih h
      refine ⟨a :: before, b, rest, middle, rfl, ?_, hfail⟩
      rw [List.foldlM_cons, hfirst]
      exact hbefore

/-- What every step keeps, a fold keeps. -/
theorem foldlM_keeps {step : σ → α → Except ε σ} {P : σ → Prop} {l : List α}
    (hstep : ∀ s, ∀ a ∈ l, ∀ t, P s → step s a = .ok t → P t) {s t : σ} (hs : P s)
    (h : l.foldlM step s = .ok t) : P t := by
  induction l generalizing s with
  | nil =>
    cases h
    exact hs
  | cons a l ih =>
    obtain ⟨middle, hfirst, h⟩ := exists_of_foldlM_cons h
    refine ih (fun s a ha => hstep s a (List.mem_cons_of_mem _ ha)) ?_ h
    exact hstep s a List.mem_cons_self middle hs hfirst

/-- Steps that agree wherever the invariant holds make the same fold. -/
theorem foldlM_agree {step step' : σ → α → Except ε σ} {P : σ → Prop} {l : List α}
    (hagree : ∀ s, ∀ a ∈ l, P s → step s a = step' s a)
    (hstep : ∀ s, ∀ a ∈ l, ∀ t, P s → step' s a = .ok t → P t) {s : σ} (hs : P s) :
    l.foldlM step s = l.foldlM step' s := by
  induction l generalizing s with
  | nil => rfl
  | cons a l ih =>
    rw [List.foldlM_cons, List.foldlM_cons, hagree s a List.mem_cons_self hs]
    cases hfirst : step' s a with
    | error e => rfl
    | ok middle =>
      exact ih (fun s a ha => hagree s a (List.mem_cons_of_mem _ ha))
        (fun s a ha => hstep s a (List.mem_cons_of_mem _ ha))
        (hstep s a List.mem_cons_self middle hs hfirst)

end Folding

namespace FileSystem

/-- The names of a directory are those under which something is. -/
theorem mem_names_iff {fs : FileSystem} {dir : Location} {name : Name} :
    name ∈ fs.names dir ↔ ∃ node, fs.get? (name :: dir) = some node := by
  rw [names, mem_inOrder, List.mem_filterMap]
  constructor
  · rintro ⟨⟨location, node⟩, hmem, heq⟩
    cases location with
    | nil => simp at heq
    | cons n d =>
      simp only [Option.ite_none_right_eq_some, Option.some.injEq] at heq
      obtain ⟨rfl, rfl⟩ := heq
      exact ⟨node, (fs.get?_eq_some_iff (by simp)).mpr hmem⟩
  · rintro ⟨node, hget⟩
    exact ⟨(name :: dir, node), (fs.get?_eq_some_iff (by simp)).mp hget, by simp⟩

/-- What holds of a directory once it holds of the directories in it holds of all directories. -/
theorem directory_induction (fs : FileSystem) {P : Location → Prop}
    (step : ∀ dir, (∀ name, fs.get? (name :: dir) = some .directory → P (name :: dir)) → P dir)
    (dir : Location) : P dir := by
  induction hn : fs.height - dir.length using Nat.strongRecOn generalizing dir with
  | ind n ih =>
    refine step dir fun name h => ih _ ?_ _ rfl
    have hlt := length_lt_height h
    rw [← hn, List.length_cons]
    omega

/-- The stops of a walk through a directory, `depth` levels below an entry of the input
directory. -/
def stopsBelow (fs : FileSystem) (depth : Nat) (dir : Location) (path : Text) : List Stop :=
  if Path.isTooLong path then [.lost path depth .nameTooLong]
  else
    (fs.names dir).flatMap fun name =>
      let entry := Path.join path name.text
      match h : fs.get? (name :: dir) with
      | some .directory =>
        have : fs.height - (name :: dir).length < fs.height - dir.length :=
          Nat.sub_succ_lt_self _ _ (length_lt_height h)
        .directory entry (some (name :: dir)) :: stopsBelow fs (depth + 1) (name :: dir) entry
      | some (.link _) =>
        if fs.isDirectory entry then [.directory entry none] else [.file entry name]
      | _ => [.file entry name]
termination_by fs.height - dir.length
decreasing_by assumption

/-- The stops of a walk through an entry of a directory below the input directory. -/
def stopsWithin (fs : FileSystem) (depth : Nat) (dir : Location) (path : Text) (name : Name) :
    List Stop :=
  let entry := Path.join path name.text
  match fs.get? (name :: dir) with
  | some .directory =>
    .directory entry (some (name :: dir)) :: fs.stopsBelow (depth + 1) (name :: dir) entry
  | some (.link _) => if fs.isDirectory entry then [.directory entry none] else [.file entry name]
  | _ => [.file entry name]

theorem stopsBelow_eq (fs : FileSystem) (depth : Nat) (dir : Location) (path : Text) :
    fs.stopsBelow depth dir path =
      if Path.isTooLong path then [.lost path depth .nameTooLong]
      else (fs.names dir).flatMap (fs.stopsWithin depth dir path) := by
  rw [stopsBelow]
  split
  · rfl
  · congr 1
    funext name
    rw [stopsWithin]
    split <;> simp_all

/-- The stops of a walk through an entry of the input directory. -/
def stopsAt (fs : FileSystem) (root : Location) (input : Text) (name : Name) : List Stop :=
  let entry := Path.join input name.text
  if Path.isTooLong entry then [.lost entry 0 .nameTooLong]
  else
    match fs.get? (name :: root) with
    | some .directory =>
      .directory entry (some (name :: root)) :: fs.stopsBelow 0 (name :: root) entry
    | some (.link _) =>
      match fs.land .target entry with
      | .ok (.node dir .directory) => .directory entry (some dir) :: fs.stopsBelow 0 dir entry
      | _ => [.link entry name]
    | some (.file _) => [.file entry name]
    | none => [.lost entry 0 .notFound]

/-- All stops of a run over an input directory. -/
def itinerary (fs : FileSystem) (input : Text) : Except FileError (List Stop) :=
  (fs.findDirectory input).map fun root => (fs.names root).flatMap (fs.stopsAt root input)

section Entered

variable {fs : FileSystem}

theorem not_entered_of_mem_singleton {stop alone : Stop} (hstop : stop ∈ [alone])
    (halone : alone.entered = none) {d : Location} : stop.entered ≠ some d := by
  rw [List.mem_singleton.mp hstop, halone]
  simp

theorem get?_of_entered_below {depth : Nat} {dir d : Location} {path : Text} {stop : Stop}
    (hstop : stop ∈ fs.stopsBelow depth dir path) (hentered : stop.entered = some d) :
    fs.get? d = some .directory := by
  induction dir using directory_induction fs generalizing depth path with
  | step dir ih =>
    rw [stopsBelow_eq] at hstop
    split at hstop
    · exact absurd hentered (not_entered_of_mem_singleton hstop rfl)
    · obtain ⟨name, -, hrow⟩ := List.mem_flatMap.mp hstop
      rw [stopsWithin] at hrow
      split at hrow
      · next hget =>
        obtain rfl | hbelow := List.mem_cons.mp hrow
        · cases hentered
          exact hget
        · exact ih name hget hbelow
      · split at hrow <;> exact absurd hentered (not_entered_of_mem_singleton hrow rfl)
      · exact absurd hentered (not_entered_of_mem_singleton hrow rfl)

theorem get?_of_entered_at {root d : Location} {input : Text} {name : Name} {stop : Stop}
    (hstop : stop ∈ fs.stopsAt root input name) (hentered : stop.entered = some d) :
    fs.get? d = some .directory := by
  rw [stopsAt] at hstop
  split at hstop
  · exact absurd hentered (not_entered_of_mem_singleton hstop rfl)
  · split at hstop
    · next hget =>
      obtain rfl | hbelow := List.mem_cons.mp hstop
      · cases hentered
        exact hget
      · exact get?_of_entered_below hbelow hentered
    · split at hstop
      · next dir hland =>
        obtain rfl | hbelow := List.mem_cons.mp hstop
        · cases hentered
          exact get?_of_land hland
        · exact get?_of_entered_below hbelow hentered
      · exact absurd hentered (not_entered_of_mem_singleton hstop rfl)
    · exact absurd hentered (not_entered_of_mem_singleton hstop rfl)
    · exact absurd hentered (not_entered_of_mem_singleton hstop rfl)

/-- A walk goes on in directories only. -/
theorem get?_of_entered {input : Text} {stops : List Stop} (hstops : fs.itinerary input = .ok stops)
    {stop : Stop} (hstop : stop ∈ stops) {d : Location} (hentered : stop.entered = some d) :
    fs.get? d = some .directory := by
  rw [itinerary] at hstops
  cases hfind : fs.findDirectory input with
  | error e =>
    rw [hfind] at hstops
    cases hstops
  | ok root =>
    rw [hfind] at hstops
    cases hstops
    obtain ⟨name, -, hrow⟩ := List.mem_flatMap.mp hstop
    exact get?_of_entered_at hrow hentered

end Entered

section Growth

variable {New : Location → FileNode → Prop} {Dir : Location → Prop} {before after : FileSystem}

/-- A stop of which growth is not noticed: the directory that the walk enters there has the same
names, and the path leads to a directory only if it did. -/
structure Unnoticed (before after : FileSystem) (stop : Stop) : Prop where
  names_eq : ∀ d, stop.entered = some d → after.names d = before.names d
  no_directory : after.isDirectory stop.path → before.isDirectory stop.path

/-- Files in other directories than the walk enters are not noticed. -/
theorem unnoticed_of_files (hgrow : GrowsBy (FileIn Dir) before after) {stop : Stop}
    (hclear : ∀ d, stop.entered = some d → ¬ Dir d) : Unnoticed before after stop where
  names_eq d hentered := hgrow.names_eq fun name node => not_fileIn (hclear d hentered) name node
  no_directory hdirectory := by rwa [isDirectory_grows hgrow] at hdirectory

/-- What has been in a directory is still there. -/
theorem get?_of_mem_names (hgrow : GrowsBy New before after) {dir : Location} {name : Name}
    (hname : name ∈ before.names dir) : after.get? (name :: dir) = before.get? (name :: dir) := by
  obtain ⟨node, hget⟩ := mem_names_iff.mp hname
  rw [hget, hgrow.get?_of_some hget]

/-- Where growth has made no directory of it, a path leads to the same directory. -/
theorem land_directory_of_unnoticed (hgrow : GrowsBy New before after) {path : Text}
    (h : after.isDirectory path → before.isDirectory path) {dir : Location} :
    after.land .target path = .ok (.node dir .directory) ↔
      before.land .target path = .ok (.node dir .directory) := by
  refine ⟨fun hland => ?_, land_node_of_grows hgrow⟩
  obtain ⟨dir', hland'⟩ := isDirectory_iff.mp (h (isDirectory_iff.mpr ⟨dir, hland⟩))
  rw [land_node_of_grows hgrow hland', Except.ok.injEq, Landing.node.injEq] at hland
  rw [hland', hland.1]

/-- Growth that is not noticed gives a walk no other stops. -/
theorem stopsBelow_grows (hgrow : GrowsBy New before after) (depth : Nat) (dir : Location)
    (path : Text) (hnames : after.names dir = before.names dir)
    (hclear : ∀ stop ∈ before.stopsBelow depth dir path, Unnoticed before after stop) :
    after.stopsBelow depth dir path = before.stopsBelow depth dir path := by
  induction dir using directory_induction before generalizing depth path with
  | step dir ih =>
    rw [stopsBelow_eq] at hclear
    rw [stopsBelow_eq, stopsBelow_eq]
    split
    · rfl
    · next hlong =>
      rw [if_neg hlong] at hclear
      rw [hnames]
      refine List.flatMap_congr fun name hname => ?_
      have hrow : ∀ stop ∈ before.stopsWithin depth dir path name, Unnoticed before after stop :=
        fun stop hstop => hclear stop (List.mem_flatMap.mpr ⟨name, hname, hstop⟩)
      rw [stopsWithin] at hrow
      rw [stopsWithin, stopsWithin, get?_of_mem_names hgrow hname]
      cases hnode : before.get? (name :: dir) with
      | none => rfl
      | some node =>
        rw [hnode] at hrow
        cases node with
        | file => rfl
        | link target =>
          have hsame : after.isDirectory (Path.join path name.text) =
              before.isDirectory (Path.join path name.text) := by
            have hentry : after.isDirectory (Path.join path name.text) →
                before.isDirectory (Path.join path name.text) := by
              simp only at hrow
              split at hrow <;> exact (hrow _ List.mem_cons_self).no_directory
            rw [Bool.eq_iff_iff, isDirectory_iff, isDirectory_iff]
            simp only [land_directory_of_unnoticed hgrow hentry]
          simp only [hsame]
        | directory =>
          simp only [List.mem_cons, forall_eq_or_imp] at hrow
          obtain ⟨hentered, hbelow⟩ := hrow
          simp only [ih name hnode _ _ (hentered.names_eq _ rfl) hbelow]

theorem stopsAt_grows (hgrow : GrowsBy New before after) {root : Location} {input : Text}
    {name : Name} (hname : name ∈ before.names root)
    (hclear : ∀ stop ∈ before.stopsAt root input name, Unnoticed before after stop) :
    after.stopsAt root input name = before.stopsAt root input name := by
  rw [stopsAt] at hclear
  rw [stopsAt, stopsAt, get?_of_mem_names hgrow hname]
  split
  · rfl
  · next hlong =>
    rw [if_neg hlong] at hclear
    cases hnode : before.get? (name :: root) with
    | none => rfl
    | some node =>
      rw [hnode] at hclear
      cases node with
      | file => rfl
      | directory =>
        simp only [List.mem_cons, forall_eq_or_imp] at hclear
        obtain ⟨hentered, hbelow⟩ := hclear
        simp only [stopsBelow_grows hgrow 0 _ _ (hentered.names_eq _ rfl) hbelow]
      | link target =>
        simp only at hclear ⊢
        by_cases hdirectory : ∃ dir,
            before.land .target (Path.join input name.text) = .ok (.node dir .directory)
        · obtain ⟨dir, hland⟩ := hdirectory
          simp only [hland, List.mem_cons, forall_eq_or_imp] at hclear
          obtain ⟨hentered, hbelow⟩ := hclear
          simp only [hland, land_node_of_grows hgrow hland,
            stopsBelow_grows hgrow 0 _ _ (hentered.names_eq _ rfl) hbelow]
        · have hentry : after.isDirectory (Path.join input name.text) →
              before.isDirectory (Path.join input name.text) := by
            split at hclear
            · next dir hland => exact absurd ⟨dir, hland⟩ hdirectory
            · exact (hclear _ List.mem_cons_self).no_directory
          split
          · next dir hland =>
            exact absurd ⟨dir, (land_directory_of_unnoticed hgrow hentry).mp hland⟩ hdirectory
          · split
            · next dir hland => exact absurd ⟨dir, hland⟩ hdirectory
            · rfl

/-- Growth that is not noticed leaves the itinerary as it is. -/
theorem itinerary_of_unnoticed (hgrow : GrowsBy New before after) {input : Text} {stops : List Stop}
    (hstops : before.itinerary input = .ok stops)
    (hroot : ∀ root, before.findDirectory input = .ok root → after.names root = before.names root)
    (hclear : ∀ stop ∈ stops, Unnoticed before after stop) : after.itinerary input = .ok stops := by
  rw [itinerary] at hstops ⊢
  cases hfind : before.findDirectory input with
  | error e =>
    rw [hfind] at hstops
    cases hstops
  | ok root =>
    have hfound : after.findDirectory input = .ok root :=
      findDirectory_of_grows hgrow hfind
    rw [hfind] at hstops
    rw [hfound]
    simp only [Except.map, Except.ok.injEq] at hstops ⊢
    rw [← hstops, hroot root hfind]
    refine List.flatMap_congr fun name hname => stopsAt_grows hgrow hname fun stop hstop => ?_
    refine hclear stop ?_
    rw [← hstops]
    exact List.mem_flatMap.mpr ⟨name, hname, hstop⟩

/-- Files outside the walk leave the itinerary as it is. -/
theorem itinerary_grows (hgrow : GrowsBy (FileIn Dir) before after) {input : Text}
    {stops : List Stop} (hstops : before.itinerary input = .ok stops)
    (hroot : ∀ root, before.findDirectory input = .ok root → ¬ Dir root)
    (hclear : ∀ stop ∈ stops, ∀ d, stop.entered = some d → ¬ Dir d) :
    after.itinerary input = .ok stops :=
  itinerary_of_unnoticed hgrow hstops
    (fun root hfind => hgrow.names_eq fun name node => not_fileIn (hroot root hfind) name node)
    fun stop hstop => unnoticed_of_files hgrow (hclear stop hstop)

end Growth

end FileSystem

namespace Run

variable {base : FileSystem} {Dir : Location → Prop} {miner : Miner} {job : Job}

theorem take_directory (run : Run base) (path : Text) (entered : Option Location) :
    run.take miner job (.directory path entered) = .ok (run.visit.passDirectory path) := rfl

theorem foldlM_take_single (run : Run base) (stop : Stop) :
    [stop].foldlM (take miner job) run = run.take miner job stop := by
  simp

theorem take_file (run : Run base) (path : Text) (name : Name) :
    run.take miner job (.file path name) = run.visit.file miner job path name := by
  rw [file_eq]
  rfl

theorem take_link (run : Run base) (path : Text) (name : Name) :
    run.take miner job (.link path name) =
      match run.fs.land .target path with
      | .error e => run.visit.fail (.walk path 0 e)
      | .ok (.free ..) => run.visit.fail (.walk path 0 .notFound)
      | .ok (.node ..) => run.visit.file miner job path name := by
  rw [file_eq]
  simp only [take, Miner.judge]
  cases run.fs.land .target path with
  | error e => rfl
  | ok landing => cases landing <;> rfl

/-- Files that the run has made are the only difference from the start. -/
def Grown (Dir : Location → Prop) (run : Run base) : Prop := GrowsBy (FileIn Dir) base run.fs

theorem grown_take (hjob : job.WritesIn base Dir) {run next : Run base} {stop : Stop}
    (hrun : run.Grown Dir) (h : run.take miner job stop = .ok next) : next.Grown Dir :=
  hrun.trans (take_grows hjob hrun h)

/-- A run through a list of stops only makes files. -/
theorem grows_foldlM_take (hjob : job.WritesIn base Dir) {run last : Run base}
    {stops : List Stop} (hrun : run.Grown Dir)
    (h : stops.foldlM (take miner job) run = .ok last) : GrowsBy (FileIn Dir) run.fs last.fs := by
  have hkeeps := foldlM_keeps
    (P := fun r => r.Grown Dir ∧ GrowsBy (FileIn Dir) run.fs r.fs)
    (fun _ _ _ _ hr h => ⟨grown_take hjob hr.1 h, hr.2.trans (take_grows hjob hr.1 h)⟩)
    ⟨hrun, GrowsBy.refl run.fs⟩ h
  exact hkeeps.2

theorem grown_foldlM_take (hjob : job.WritesIn base Dir) {run last : Run base}
    {stops : List Stop} (hrun : run.Grown Dir)
    (h : stops.foldlM (take miner job) run = .ok last) : last.Grown Dir :=
  hrun.trans (grows_foldlM_take hjob hrun h)

/-- Visits an entry of a directory below the input directory and all below it. -/
def within (miner : Miner) (job : Job) (depth : Nat) (dir : Location) (path : Text)
    (run : Run base) (name : Name) : Step base :=
  let entry := Path.join path name.text
  match run.fs.get? (name :: dir) with
  | some .directory =>
    walk miner job (depth + 1) (name :: dir) entry (run.visit.passDirectory entry)
  | some (.link _) =>
    if run.fs.isDirectory entry then .ok (run.visit.passDirectory entry)
    else run.visit.file miner job entry name
  | _ => run.visit.file miner job entry name

theorem walk_eq_within (depth : Nat) (dir : Location) (path : Text) (run : Run base) :
    walk miner job depth dir path run =
      if Path.isTooLong path then run.visit.fail (.walk path depth .nameTooLong)
      else List.foldlM (within miner job depth dir path) run (run.fs.names dir) := by
  rw [walk]
  split
  · rfl
  · congr 1
    funext run name
    rw [within]
    simp only [visit]
    split
    · next h => simp only [h]
    · next target h => simp only [h]; rfl
    · simp_all

/-- A walk through a directory visits the stops listed at the start. -/
theorem walk_eq (hjob : job.WritesIn base Dir) (depth : Nat) (dir : Location) (path : Text)
    (hdir : ¬ Dir dir)
    (hclear : ∀ stop ∈ base.stopsBelow depth dir path, ∀ d, stop.entered = some d → ¬ Dir d)
    (run : Run base) (hrun : run.Grown Dir) :
    walk miner job depth dir path run =
      (base.stopsBelow depth dir path).foldlM (take miner job) run := by
  induction dir using FileSystem.directory_induction base generalizing depth path run with
  | step dir ih =>
    rw [walk_eq_within]
    rw [FileSystem.stopsBelow_eq] at hclear ⊢
    split
    · rfl
    · next hlong =>
      rw [if_neg hlong] at hclear
      rw [foldlM_flatMap, hrun.names_eq fun name node => not_fileIn hdir name node]
      refine foldlM_agree (P := Grown Dir) ?_
        (fun _ _ _ _ hrun h => grown_foldlM_take hjob hrun h) hrun
      intro run name hname hrun
      have hget : run.fs.get? (name :: dir) = base.get? (name :: dir) :=
        hrun.get?_eq fun node => not_fileIn hdir name node
      have hrow : ∀ stop ∈ base.stopsWithin depth dir path name, ∀ d,
          stop.entered = some d → ¬ Dir d :=
        fun stop hstop => hclear stop (List.mem_flatMap.mpr ⟨name, hname, hstop⟩)
      rw [within, hget]
      rw [FileSystem.stopsWithin] at hrow ⊢
      cases hnode : base.get? (name :: dir) with
      | none => exact ((foldlM_take_single run _).trans (take_file run _ name)).symm
      | some node =>
        rw [hnode] at hrow
        cases node with
        | file => exact ((foldlM_take_single run _).trans (take_file run _ name)).symm
        | directory =>
          simp only [List.mem_cons, forall_eq_or_imp] at hrow
          obtain ⟨hentered, hbelow⟩ := hrow
          have hpass : (run.visit.passDirectory (Path.join path name.text)).Grown Dir := hrun
          simp only [List.foldlM_cons, take_directory]
          exact ih name hnode _ _ (hentered _ rfl) hbelow _ hpass
        | link target =>
          simp only [FileSystem.isDirectory_grows hrun]
          split
          · rfl
          · exact ((foldlM_take_single run _).trans (take_file run _ name)).symm

theorem project_link (run : Run base) {root : Location} {input : Text} {name : Name}
    {target : Text} (hnode : run.fs.get? (name :: root) = some (.link target))
    (hlong : ¬ Path.isTooLong (Path.join input name.text)) :
    project miner job root input run name =
      match run.fs.land .target (Path.join input name.text) with
      | .ok (.node dir .directory) =>
        walk miner job 0 dir (Path.join input name.text)
          (run.visit.passDirectory (Path.join input name.text))
      | _ => run.take miner job (.link (Path.join input name.text) name) := by
  have hget : run.visit.fs.get? (name :: root) = some (.link target) := hnode
  rw [project, if_neg hlong, take_link, FileSystem.land]
  simp only [hget]
  dsimp only [visit]
  cases run.fs.place .target (Path.join input name.text) with
  | error e => rfl
  | ok place =>
    cases place with
    | free => rfl
    | node location node => cases node <;> rfl

/-- A walk through an entry of the input directory visits the stops listed at the start. -/
theorem project_eq (hjob : job.WritesIn base Dir) {root : Location} {input : Text} {name : Name}
    (hname : name ∈ base.names root)
    (hclear : ∀ stop ∈ base.stopsAt root input name, ∀ d, stop.entered = some d → ¬ Dir d)
    (run : Run base) (hrun : run.Grown Dir) :
    project miner job root input run name =
      (base.stopsAt root input name).foldlM (take miner job) run := by
  obtain ⟨node, hnode⟩ := FileSystem.mem_names_iff.mp hname
  have hget : run.fs.get? (name :: root) = some node := hrun.get?_of_some hnode
  have hpass : (run.visit.passDirectory (Path.join input name.text)).Grown Dir := hrun
  rw [FileSystem.stopsAt] at hclear ⊢
  simp only [hnode] at hclear ⊢
  split
  · next hlong =>
    rw [project, if_pos hlong, foldlM_take_single]
    rfl
  · next hlong =>
    rw [if_neg hlong] at hclear
    cases node with
    | file content =>
      have hget' : run.visit.fs.get? (name :: root) = some (.file content) := hget
      rw [project, if_neg hlong, hget', foldlM_take_single, take_file]
    | directory =>
      have hget' : run.visit.fs.get? (name :: root) = some .directory := hget
      simp only [List.mem_cons, forall_eq_or_imp] at hclear
      obtain ⟨hentered, hbelow⟩ := hclear
      rw [project, if_neg hlong, hget', List.foldlM_cons, take_directory]
      exact walk_eq hjob 0 _ _ (hentered _ rfl) hbelow _ hpass
    | link target =>
      rw [project_link run hget hlong]
      simp only at hclear ⊢
      have hiff : ∀ dir,
          run.fs.land .target (Path.join input name.text) = .ok (.node dir .directory) ↔
            base.land .target (Path.join input name.text) = .ok (.node dir .directory) :=
        fun _ => FileSystem.land_directory_iff hrun
      by_cases hdirectory : ∃ dir,
          base.land .target (Path.join input name.text) = .ok (.node dir .directory)
      · obtain ⟨dir, hland⟩ := hdirectory
        simp only [hland, List.mem_cons, forall_eq_or_imp] at hclear
        obtain ⟨hentered, hbelow⟩ := hclear
        simp only [hland, (hiff dir).mpr hland, List.foldlM_cons, take_directory]
        exact walk_eq hjob 0 _ _ (hentered _ rfl) hbelow _ hpass
      · have hafter : ¬ ∃ dir,
            run.fs.land .target (Path.join input name.text) = .ok (.node dir .directory) := by
          simpa only [hiff] using hdirectory
        split
        · next dir hland => exact absurd ⟨dir, hland⟩ hafter
        · split
          · next dir hland => exact absurd ⟨dir, hland⟩ hdirectory
          · rw [foldlM_take_single]

/-- A run visits the stops listed at the start. -/
theorem all_eq (hjob : job.WritesIn base Dir) {input : Text} {stops : List Stop}
    (hstops : base.itinerary input = .ok stops)
    (hclear : ∀ stop ∈ stops, ∀ d, stop.entered = some d → ¬ Dir d) (run : Run base)
    (hrun : run.fs = base) :
    run.all miner job input = stops.foldlM (take miner job) run := by
  rw [FileSystem.itinerary] at hstops
  rw [all, hrun]
  cases hroot : base.findDirectory input with
  | error e => simp [hroot, Except.map] at hstops
  | ok root =>
    simp only [hroot, Except.map, Except.ok.injEq] at hstops
    have hgrown : run.Grown Dir := by
      rw [Grown, hrun]
      exact GrowsBy.refl base
    rw [← hstops, foldlM_flatMap]
    refine foldlM_agree (P := Grown Dir) ?_
      (fun _ _ _ _ hrun h => grown_foldlM_take hjob hrun h) hgrown
    intro run name hname hrun
    refine project_eq hjob hname (fun stop hstop => hclear stop ?_) run hrun
    rw [← hstops]
    exact List.mem_flatMap.mpr ⟨name, hname, hstop⟩

/-- A run over what is no directory ends at once. -/
theorem all_eq_of_error {input : Text} {e : FileError} (run : Run base) (hrun : run.fs = base)
    (h : base.itinerary input = .error e) :
    run.all miner job input = run.fail (.io .readDirectory input e) := by
  rw [FileSystem.itinerary] at h
  rw [all, hrun]
  cases hroot : base.findDirectory input with
  | error e' =>
    simp only [hroot, Except.map, Except.error.injEq] at h
    rw [h]
  | ok root => simp [hroot, Except.map] at h

/-- A run that succeeds has come through its itinerary, if it does not write where it walks. -/
theorem all_eq_ok (hjob : job.WritesIn base Dir) {input : Text}
    (hclear : ∀ stops, base.itinerary input = .ok stops →
      ∀ stop ∈ stops, ∀ d, stop.entered = some d → ¬ Dir d)
    {run last : Run base} (hrun : run.fs = base) (h : run.all miner job input = .ok last) :
    ∃ stops, base.itinerary input = .ok stops ∧ stops.foldlM (take miner job) run = .ok last := by
  cases hstops : base.itinerary input with
  | error e =>
    rw [all_eq_of_error run hrun hstops] at h
    simp [fail] at h
  | ok stops =>
    rw [all_eq hjob hstops (hclear stops hstops) run hrun] at h
    exact ⟨stops, rfl, h⟩

end Run

end TokenCorpus
