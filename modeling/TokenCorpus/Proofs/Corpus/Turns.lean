import TokenCorpus.Proofs.Corpus.Agenda
import TokenCorpus.Proofs.Corpus.Trails

/-!
Which directories a run lists.

A run takes one turn after the other. In the turn of a directory that it enters, it lists what is in
there at that time; what is made there later is not on the list. Links in the input directory may
lead to one directory again and again. Main statement: in the turns of one entry of the input
directory, no directory is listed twice, and the entries of a directory that have their turn are
those of its list.
-/

namespace TokenCorpus

open FileSystem (nameIn? nameIn?_eq_some)

namespace Pending

/-- The directory that is listed when the entry has its turn. -/
def listed? (fs : FileSystem) (pending : Pending) : Option Location :=
  if Path.isTooLong (pending.stop fs).path then none else (pending.stop fs).entered

/-- Where the entry lies, if it is on the list of a directory below the input directory. -/
def place? : Pending → Option Location
  | .within _ dir _ name => some (name :: dir)
  | .project .. | .unlisted .. => none

/-- Whether it is an entry of the input directory. -/
def isProject : Pending → Bool
  | .project .. => true
  | .within .. | .unlisted .. => false

/-- Where the entries lie that are on lists of directories below the input directory. -/
def places (agenda : List Pending) : List Location := agenda.filterMap place?

variable {fs : FileSystem} {pending : Pending} {dir : Location}

theorem below_of_listed (h : pending.listed? fs = some dir) :
    pending.below fs =
      (fs.names dir).map (.within pending.depth dir (pending.stop fs).path) := by
  rw [listed?, Option.ite_none_left_eq_some] at h
  rw [below, h.2]
  exact if_neg h.1

theorem below_of_not_listed (h : pending.listed? fs = none) :
    pending.below fs = [] ∨ ∃ depth path, pending.below fs = [.unlisted depth path] := by
  rw [below]
  cases hentered : (pending.stop fs).entered with
  | none => exact Or.inl rfl
  | some dir =>
    rw [listed?, hentered, ite_eq_left_iff] at h
    have hlong : Path.isTooLong (pending.stop fs).path := by
      by_contra hshort
      exact absurd (h hshort) (by simp)
    exact Or.inr ⟨_, _, if_pos hlong⟩

/-- The turn of a directory that is entered puts what it holds on the agenda, or that it has no
list. -/
theorem exists_of_mem_below {later : Pending} (h : later ∈ pending.below fs) :
    ∃ dir, (pending.stop fs).entered = some dir ∧
      ((∃ depth path, later = .unlisted depth path) ∨
        ∃ depth path name, later = .within depth dir path name) := by
  rw [below] at h
  split at h
  · next dir hentered =>
    refine ⟨dir, hentered, ?_⟩
    rw [FileSystem.agendaBelow] at h
    split at h
    · exact Or.inl ⟨_, _, List.mem_singleton.mp h⟩
    · obtain ⟨name, -, rfl⟩ := List.mem_map.mp h
      exact Or.inr ⟨_, _, name, rfl⟩
  · cases h

theorem isProject_of_mem_below {later : Pending} (h : later ∈ pending.below fs) :
    later.isProject = false := by
  obtain ⟨dir, -, ⟨depth, path, rfl⟩ | ⟨depth, path, name, rfl⟩⟩ := exists_of_mem_below h
  · rfl
  · rfl

@[simp] theorem places_nil : places [] = [] := rfl

@[simp] theorem places_within {depth : Nat} {dir : Location} {path : Text} {name : Name}
    {agenda : List Pending} :
    places (within depth dir path name :: agenda) = (name :: dir) :: places agenda := rfl

@[simp] theorem places_unlisted {depth : Nat} {path : Text} {agenda : List Pending} :
    places (unlisted depth path :: agenda) = places agenda := rfl

@[simp] theorem places_project {root : Location} {input : Text} {name : Name}
    {agenda : List Pending} : places (project root input name :: agenda) = places agenda := rfl

theorem places_append (first second : List Pending) :
    places (first ++ second) = places first ++ places second := List.filterMap_append

theorem places_below_of_listed (h : pending.listed? fs = some dir) :
    places (pending.below fs) = (fs.names dir).map (· :: dir) := by
  rw [below_of_listed h, places, List.filterMap_map, ← List.filterMap_eq_map]
  rfl

theorem places_below_of_not_listed (h : pending.listed? fs = none) :
    places (pending.below fs) = [] := by
  obtain hnil | ⟨depth, path, hone⟩ := below_of_not_listed h
  · rw [hnil]
    rfl
  · rw [hone]
    rfl

/-- An entry on the list of a directory is entered itself only if it is a directory. -/
theorem entered_within {depth : Nat} {parent : Location} {path : Text} {name : Name}
    (h : ((within depth parent path name).stop fs).entered = some dir) :
    dir = name :: parent ∧ fs.get? dir = some .directory := by
  rw [stop] at h
  split at h
  · next hget =>
    cases h
    exact ⟨rfl, hget⟩
  · split at h <;> cases h
  · cases h

theorem listed?_within {depth : Nat} {parent : Location} {path : Text} {name : Name}
    (h : (within depth parent path name).listed? fs = some dir) : dir = name :: parent := by
  rw [listed?, Option.ite_none_left_eq_some] at h
  exact (entered_within h.2).1

theorem listed?_unlisted (fs : FileSystem) (depth : Nat) (path : Text) :
    (unlisted depth path).listed? fs = none := ite_self none

end Pending

/-- An entry that has its turn, and the file system as it is then. -/
structure Turn where
  pending : Pending
  fs : FileSystem

namespace Turn

/-- The stop that the run makes. -/
def stop (turn : Turn) : Stop := turn.pending.stop turn.fs

/-- The directory that is listed, and what is in it. -/
def listing? (turn : Turn) : Option (Location × List Name) :=
  (turn.pending.listed? turn.fs).map fun dir => (dir, turn.fs.names dir)

end Turn

/-! ## The order of listings -/

/-- The state of a walk that begins at one entry of the input directory: the listings so far, the
places of the entries on these lists that have had their turn, and those of the others. -/
structure Orderly (listings : List (Location × List Name)) (seen todo : List Location) : Prop where
  listed_once : (listings.map Prod.fst).Nodup
  /-- Whatever is on a list lies in the directory that was listed. -/
  inside : ∀ place ∈ seen ++ todo, ∃ name, ∃ listing ∈ listings, place = name :: listing.1
  /-- No directory that was listed lies at or below an entry that has not had its turn. -/
  clear : ∀ place ∈ todo, ∀ listing ∈ listings, ¬ place <:+ listing.1
  /-- Of two entries that have not had their turn, none lies below the other. -/
  apart : todo.Pairwise fun first second => ¬ first <:+ second ∧ ¬ second <:+ first
  as_listed : ∀ listing ∈ listings, (seen ++ todo).filterMap (nameIn? listing.1) = listing.2

namespace Orderly

variable {listings : List (Location × List Name)} {seen todo : List Location} {place : Location}

theorem filterMap_nameIn?_of_forall {dir : Location} {places : List Location}
    (h : ∀ name, name :: dir ∉ places) : places.filterMap (nameIn? dir) = [] := by
  rw [List.filterMap_eq_nil_iff]
  intro place hplace
  rw [Option.eq_none_iff_forall_ne_some]
  intro name hname
  exact h name (nameIn?_eq_some hname ▸ hplace)

theorem nameIn?_cons (name : Name) (dir : Location) : nameIn? dir (name :: dir) = some name :=
  if_pos rfl

theorem filterMap_nameIn?_map (names : List Name) (dir : Location) :
    (names.map (· :: dir)).filterMap (nameIn? dir) = names := by
  rw [List.filterMap_map]
  exact (List.filterMap_congr fun name _ => nameIn?_cons name dir).trans List.filterMap_some

theorem apart_of_ne {name other : Name} (hne : name ≠ other) (dir : Location) :
    ¬ name :: dir <:+ other :: dir ∧ ¬ other :: dir <:+ name :: dir := by
  constructor
  · intro hsuffix
    exact hne (List.cons.inj (hsuffix.eq_of_length rfl)).1
  · intro hsuffix
    exact hne (List.cons.inj (hsuffix.eq_of_length rfl)).1.symm

/-- At the beginning one directory has been listed, and nothing on its list has had its turn. -/
theorem first (dir : Location) {names : List Name} (hnames : names.Nodup) :
    Orderly [(dir, names)] [] (names.map (· :: dir)) where
  listed_once := List.nodup_singleton dir
  inside place hplace := by
    obtain ⟨name, -, rfl⟩ := List.mem_map.mp hplace
    exact ⟨name, (dir, names), List.mem_singleton_self _, rfl⟩
  clear place hplace listing hlisting hsuffix := by
    obtain ⟨name, -, rfl⟩ := List.mem_map.mp hplace
    rw [List.mem_singleton.mp hlisting] at hsuffix
    exact absurd hsuffix.length_le (Nat.not_succ_le_self _)
  apart := by
    rw [List.pairwise_map]
    exact hnames.imp fun hne => apart_of_ne hne dir
  as_listed listing hlisting := by
    rw [List.mem_singleton.mp hlisting, List.nil_append]
    exact filterMap_nameIn?_map names dir

/-- An entry that is not listed has had its turn. -/
theorem pass (h : Orderly listings seen (place :: todo)) :
    Orderly listings (seen ++ [place]) todo where
  listed_once := h.listed_once
  inside := by
    rw [List.append_assoc]
    exact h.inside
  clear place' hplace := h.clear place' (List.mem_cons_of_mem _ hplace)
  apart := h.apart.of_cons
  as_listed := by
    rw [List.append_assoc]
    exact h.as_listed

theorem filterMap_nameIn?_map_of_ne (names : List Name) {dir other : Location} (hne : other ≠ dir) :
    (names.map (· :: dir)).filterMap (nameIn? other) = [] := by
  refine filterMap_nameIn?_of_forall fun name hname => ?_
  obtain ⟨first, -, heq⟩ := List.mem_map.mp hname
  exact hne (List.cons.inj heq).2.symm

/-- An entry that has its turn has not been listed. -/
theorem ne_listed (h : Orderly listings seen (place :: todo)) {listing : Location × List Name}
    (hlisting : listing ∈ listings) : listing.1 ≠ place := by
  intro heq
  exact h.clear place List.mem_cons_self listing hlisting (heq ▸ List.suffix_rfl)

/-- What has had its turn or will have it lies in no directory that has not been listed. -/
theorem not_mem_of_unlisted (h : Orderly listings seen (place :: todo)) (name : Name) :
    name :: place ∉ seen ++ place :: todo := by
  intro hmem
  obtain ⟨first, listing, hlisting, heq⟩ := h.inside _ hmem
  exact h.ne_listed hlisting (List.cons.inj heq).2.symm

/-- An entry that has its turn is listed for the first time, and what is on its list lies apart from
everything else that has not had its turn. -/
theorem list (h : Orderly listings seen (place :: todo)) {names : List Name}
    (hnames : names.Nodup) :
    Orderly (listings ++ [(place, names)]) (seen ++ [place])
      (names.map (· :: place) ++ todo) where
  listed_once := by
    rw [List.map_append, List.nodup_append]
    refine ⟨h.listed_once, List.nodup_singleton place, ?_⟩
    intro dir hdir other hother
    obtain ⟨listing, hlisting, rfl⟩ := List.mem_map.mp hdir
    rw [List.mem_singleton.mp hother]
    exact h.ne_listed hlisting
  inside := by
    intro other hother
    have hcases : other ∈ names.map (· :: place) ∨ other ∈ seen ++ place :: todo := by
      simp only [List.mem_append, List.mem_cons, List.not_mem_nil, or_false] at hother ⊢
      tauto
    cases hcases with
    | inl hnew =>
      obtain ⟨name, -, rfl⟩ := List.mem_map.mp hnew
      exact ⟨name, (place, names), List.mem_append_right _ (List.mem_singleton_self _), rfl⟩
    | inr hold =>
      obtain ⟨name, listing, hlisting, heq⟩ := h.inside other hold
      exact ⟨name, listing, List.mem_append_left _ hlisting, heq⟩
  clear := by
    intro other hother listing hlisting hsuffix
    rw [List.mem_append, List.mem_singleton] at hlisting
    cases List.mem_append.mp hother with
    | inl hnew =>
      obtain ⟨name, -, rfl⟩ := List.mem_map.mp hnew
      obtain hlisting | rfl := hlisting
      · exact h.clear place List.mem_cons_self listing hlisting
          ((List.suffix_cons name place).trans hsuffix)
      · exact absurd hsuffix.length_le (Nat.not_succ_le_self _)
    | inr hold =>
      obtain hlisting | rfl := hlisting
      · exact h.clear other (List.mem_cons_of_mem _ hold) listing hlisting hsuffix
      · exact (List.rel_of_pairwise_cons h.apart hold).2 hsuffix
  apart := by
    rw [List.pairwise_append, List.pairwise_map]
    refine ⟨hnames.imp fun hne => apart_of_ne hne place, h.apart.of_cons, ?_⟩
    intro new hnew other hother
    obtain ⟨name, -, rfl⟩ := List.mem_map.mp hnew
    obtain ⟨hbelow, habove⟩ := List.rel_of_pairwise_cons h.apart hother
    refine ⟨fun hsuffix => hbelow ((List.suffix_cons name place).trans hsuffix), fun hsuffix => ?_⟩
    obtain rfl | hsuffix := List.suffix_cons_iff.mp hsuffix
    · exact hbelow (List.suffix_cons name place)
    · exact habove hsuffix
  as_listed := by
    intro listing hlisting
    have hsplit : ∀ dir,
        (seen ++ [place] ++ (names.map (· :: place) ++ todo)).filterMap (nameIn? dir) =
          (seen ++ [place]).filterMap (nameIn? dir) ++
            ((names.map (· :: place)).filterMap (nameIn? dir) ++ todo.filterMap (nameIn? dir)) :=
      fun dir => by simp only [List.filterMap_append]
    rw [hsplit]
    rw [List.mem_append, List.mem_singleton] at hlisting
    obtain hlisting | rfl := hlisting
    · rw [filterMap_nameIn?_map_of_ne names (h.ne_listed hlisting), List.nil_append,
        ← List.filterMap_append, List.append_assoc]
      exact h.as_listed listing hlisting
    · have hunlisted := h.not_mem_of_unlisted
      have hbefore : (seen ++ [place]).filterMap (nameIn? place) = [] :=
        filterMap_nameIn?_of_forall fun name hname => hunlisted name <| by
          simp only [List.mem_append, List.mem_cons, List.not_mem_nil, or_false] at hname ⊢
          tauto
      have hafter : todo.filterMap (nameIn? place) = [] :=
        filterMap_nameIn?_of_forall fun name hname =>
          hunlisted name (List.mem_append_right _ (List.mem_cons_of_mem _ hname))
      rw [hbefore, hafter, filterMap_nameIn?_map, List.nil_append, List.append_nil]

/-- What has had its turn or will have it are different entries. -/
theorem nodup (h : Orderly listings seen todo) (hnames : ∀ listing ∈ listings, listing.2.Nodup) :
    (seen ++ todo).Nodup := by
  refine List.nodup_iff_sublist.mpr fun place hsublist => ?_
  obtain ⟨name, listing, hlisting, rfl⟩ := h.inside place (hsublist.subset List.mem_cons_self)
  have htwice := hsublist.filterMap (nameIn? listing.1)
  rw [h.as_listed listing hlisting] at htwice
  simp only [List.filterMap_cons, nameIn?_cons] at htwice
  exact List.nodup_iff_sublist.mp (hnames listing hlisting) name htwice

end Orderly

/-! ## The turns of a run -/

namespace Run

variable {base : FileSystem} {miner : Miner} {job : Job}

/-- A run comes from one agenda to another and takes the turns on the way. -/
inductive Turns (miner : Miner) (job : Job) :
    Run base → List Pending → List Turn → Run base → List Pending → Prop where
  | here (run : Run base) (agenda : List Pending) : Turns miner job run agenda [] run agenda
  | turn {run next last : Run base} {pending : Pending} {agenda rest : List Pending}
      {turns : List Turn} (htake : run.take miner job (pending.stop run.fs) = .ok next)
      (hrest : Turns miner job next (pending.below run.fs ++ agenda) turns last rest) :
      Turns miner job run (pending :: agenda) (⟨pending, run.fs⟩ :: turns) last rest

theorem Passes.exists_turns {run last : Run base} {agenda rest : List Pending} {stops : List Stop}
    (h : Passes miner job run agenda stops last rest) :
    ∃ turns, Turns miner job run agenda turns last rest ∧ stops = turns.map Turn.stop := by
  induction h with
  | here => exact ⟨[], .here _ _, rfl⟩
  | visit htake _ ih =>
    obtain ⟨turns, hturns, rfl⟩ := ih
    exact ⟨_, .turn htake hturns, rfl⟩

namespace Turns

variable {run middle last : Run base} {agenda rest : List Pending} {turns : List Turn}

theorem foldlM_take (h : Turns miner job run agenda turns last rest) :
    (turns.map Turn.stop).foldlM (take miner job) run = .ok last := by
  induction h with
  | here => rfl
  | turn htake _ ih =>
    rw [List.map_cons, List.foldlM_cons, Turn.stop, htake]
    exact ih

/-- Turns are taken in the order of the agenda, so those of its first part come first. -/
theorem split {before after : List Pending}
    (h : Turns miner job run (before ++ after) turns last rest) :
    (∃ left, Turns miner job run before turns last left ∧ rest = left ++ after) ∨
      ∃ first others middle, turns = first ++ others ∧ Turns miner job run before first middle [] ∧
        Turns miner job middle after others last rest := by
  generalize hagenda : before ++ after = agenda at h
  induction h generalizing before with
  | here run agenda => exact Or.inl ⟨before, .here run before, hagenda.symm⟩
  | @turn run next last pending agenda rest turns htake hrest ih =>
    cases before with
    | nil =>
      rw [List.nil_append] at hagenda
      rw [hagenda]
      exact Or.inr ⟨[], _, run, rfl, .here run [], .turn htake hrest⟩
    | cons first before =>
      obtain ⟨rfl, rfl⟩ := List.cons.inj hagenda
      obtain ⟨left, hleft, rfl⟩ | ⟨first, others, middle, rfl, hfirst, hothers⟩ :=
        ih (List.append_assoc _ before after)
      · exact Or.inl ⟨left, .turn htake hleft, rfl⟩
      · exact Or.inr ⟨_ :: first, others, middle, rfl, .turn htake hfirst, hothers⟩

/-- Some of the turns come first. -/
theorem of_append {first others : List Turn}
    (h : Turns miner job run agenda (first ++ others) last rest) :
    ∃ middle between, Turns miner job run agenda first middle between ∧
      Turns miner job middle between others last rest := by
  induction first generalizing run agenda with
  | nil => exact ⟨run, agenda, .here run agenda, h⟩
  | cons turn first ih =>
    cases h with
    | turn htake hrest =>
      obtain ⟨middle, between, hfirst, hothers⟩ := ih hrest
      exact ⟨middle, between, .turn htake hfirst, hothers⟩

end Turns

end Run

/-! ## Rows of turns -/

/-- Behind the given turns and before the others on the agenda, a walk that begins at one entry of
the input directory is in order. -/
def InOrder (past : List Turn) (agenda : List Pending) : Prop :=
  Orderly (past.filterMap Turn.listing?) (Pending.places (past.map Turn.pending))
      (Pending.places agenda) ∧
    ∀ pending ∈ agenda, pending.isProject = false

/-- A turn keeps the order: it lists no directory that was listed before. -/
theorem InOrder.turn {past : List Turn} {pending : Pending} {agenda : List Pending}
    (h : InOrder past (pending :: agenda)) (fs : FileSystem) :
    InOrder (past ++ [⟨pending, fs⟩]) (pending.below fs ++ agenda) := by
  obtain ⟨horder, hinside⟩ := h
  rw [List.forall_mem_cons] at hinside
  refine ⟨?_, fun later hlater => ?_⟩
  · rw [List.filterMap_append, List.map_append, Pending.places_append, Pending.places_append]
    cases pending with
    | project => cases hinside.1
    | unlisted depth path =>
      have hnone := Pending.listed?_unlisted fs depth path
      rw [Pending.places_below_of_not_listed hnone]
      simpa [Turn.listing?, hnone] using horder
    | within depth dir path name =>
      rw [Pending.places_within] at horder
      cases hlisted : (Pending.within depth dir path name).listed? fs with
      | none =>
        rw [Pending.places_below_of_not_listed hlisted]
        simpa [Turn.listing?, hlisted] using horder.pass
      | some place =>
        obtain rfl := Pending.listed?_within hlisted
        rw [Pending.places_below_of_listed hlisted]
        have hlist := horder.list (fs.names_nodup (name :: dir))
        simpa [Turn.listing?, hlisted] using hlist
  · cases List.mem_append.mp hlater with
    | inl hbelow => exact Pending.isProject_of_mem_below hbelow
    | inr hold => exact hinside.2 later hold

/-- The turn of an entry of the input directory begins a walk in order. -/
theorem inOrder_first (root : Location) (input : Text) (name : Name) (fs : FileSystem) :
    InOrder [⟨.project root input name, fs⟩] ((Pending.project root input name).below fs) := by
  refine ⟨?_, fun _ => Pending.isProject_of_mem_below⟩
  cases hlisted : (Pending.project root input name).listed? fs with
  | none =>
    rw [Pending.places_below_of_not_listed hlisted]
    simp only [Turn.listing?, hlisted, Option.map_none, List.filterMap_cons_none]
    exact ⟨.nil, nofun, nofun, .nil, nofun⟩
  | some dir =>
    rw [Pending.places_below_of_listed hlisted]
    have hfirst := Orderly.first dir (fs.names_nodup dir)
    simpa [Turn.listing?, hlisted] using hfirst

/-- The turns of one entry of the input directory and of what lies below it, and what of that is
left to be visited. -/
structure RowOf (root : Location) (input : Text) (name : Name) (row : List Turn)
    (left : List Pending) : Prop where
  begins : ∃ first others, row = first :: others ∧ first.pending = .project root input name ∧
    ∀ turn ∈ others, turn.pending.isProject = false
  /-- No directory is listed twice. -/
  listed_once : ((row.filterMap Turn.listing?).map Prod.fst).Nodup
  /-- The entries of a directory that have their turn, and those that are left, are those on its
  list, in the order of the list. -/
  as_listed : ∀ listing ∈ row.filterMap Turn.listing?,
    (Pending.places (row.map Turn.pending ++ left)).filterMap (nameIn? listing.1) = listing.2

/-- The turns of a run over the given entries of the input directory: one row after the other, until
nothing is left or the run fails. -/
inductive Rows (root : Location) (input : Text) :
    List Name → List Turn → List Pending → Prop where
  | none (names : List Name) : Rows root input names [] (names.map (.project root input))
  | unfinished {name : Name} {names : List Name} {row : List Turn} {left : List Pending}
      (hrow : RowOf root input name row left) :
      Rows root input (name :: names) row (left ++ names.map (.project root input))
  | row {name : Name} {names : List Name} {row turns : List Turn} {rest : List Pending}
      (hrow : RowOf root input name row []) (hrows : Rows root input names turns rest) :
      Rows root input (name :: names) (row ++ turns) rest

namespace Run.Turns

variable {base : FileSystem} {miner : Miner} {job : Job} {run last : Run base}
  {agenda rest : List Pending} {turns : List Turn} {root : Location} {input : Text} {name : Name}

theorem inOrder (h : Turns miner job run agenda turns last rest) :
    ∀ {past}, InOrder past agenda →
      InOrder (past ++ turns) rest ∧ ∀ turn ∈ turns, turn.pending.isProject = false := by
  induction h with
  | here =>
    intro past horder
    rw [List.append_nil]
    exact ⟨horder, nofun⟩
  | @turn run next last pending agenda rest turns _ _ ih =>
    intro past horder
    obtain ⟨hlast, hturns⟩ := ih (horder.turn run.fs)
    rw [List.append_assoc] at hlast
    exact ⟨hlast, List.forall_mem_cons.mpr ⟨(List.forall_mem_cons.mp horder.2).1, hturns⟩⟩

theorem inOrder_row (h : Turns miner job run [.project root input name] turns last rest)
    (hne : turns ≠ []) :
    InOrder turns rest ∧ ∃ first others, turns = first :: others ∧
      first.pending = .project root input name ∧
        ∀ turn ∈ others, turn.pending.isProject = false := by
  cases h with
  | here => exact absurd rfl hne
  | turn htake hrest =>
    rw [List.append_nil] at hrest
    obtain ⟨horder, hothers⟩ := hrest.inOrder (inOrder_first root input name run.fs)
    exact ⟨horder, _, _, rfl, rfl, hothers⟩

/-- The turns of one entry of the input directory make a row. -/
theorem rowOf (h : Turns miner job run [.project root input name] turns last rest)
    (hne : turns ≠ []) : RowOf root input name turns rest := by
  obtain ⟨⟨horder, -⟩, hbegins⟩ := h.inOrder_row hne
  refine ⟨hbegins, horder.listed_once, ?_⟩
  rw [Pending.places_append]
  exact horder.as_listed

/-- The turns of a run over entries of the input directory make rows. -/
theorem rows {names : List Name}
    (h : Turns miner job run (names.map (.project root input)) turns last rest) :
    Rows root input names turns rest := by
  induction names generalizing run turns with
  | nil =>
    cases h
    exact .none []
  | cons name names ih =>
    have hsplit : Turns miner job run
      ([.project root input name] ++ names.map (.project root input)) turns last rest := h
    obtain ⟨left, hleft, rfl⟩ | ⟨first, others, middle, rfl, hfirst, hothers⟩ := hsplit.split
    · cases hleft with
      | here => exact .none (name :: names)
      | turn htake hrest => exact .unfinished (rowOf (.turn htake hrest) (List.cons_ne_nil _ _))
    · refine .row (hfirst.rowOf ?_) (ih hothers)
      rintro rfl
      cases hfirst

end Run.Turns

end TokenCorpus
