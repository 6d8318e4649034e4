import Mathlib.Data.List.Nodup
import Mathlib.Data.List.Sort
import TokenCorpus.Proofs.Text.Bytes
import TokenCorpus.Proofs.Corpus.Itinerary

/-!
Which entries a walk comes to, and in which order.

`Walked` says which entries belong to a walk, by the names that lead to them from the input
directory. `walked` lists them. Main statements: the list holds exactly these entries, in the
lexicographic order of their names; and the stops of a run are the entries of the list.
-/

namespace TokenCorpus

/-- Lists in the strict order of their keys are equal if they have the same members. -/
theorem eq_of_increasing {α β : Type} [LT β] (key : α → β) (hirrefl : ∀ k : β, ¬ k < k)
    (htrans : ∀ {k l m : β}, k < l → l < m → k < m) {a b : List α}
    (ha : a.Pairwise fun x y => key x < key y) (hb : b.Pairwise fun x y => key x < key y)
    (hmem : ∀ x, x ∈ a ↔ x ∈ b) : a = b := by
  have hasymm : Std.Antisymm fun x y : α => key x < key y :=
    ⟨fun x _ hlt hgt => absurd (htrans hlt hgt) (hirrefl (key x))⟩
  have hself : Std.Irrefl fun x y : α => key x < key y := ⟨fun x => hirrefl (key x)⟩
  exact ha.eq_of_mem_iff hb hmem

/-- The names that lead to an entry, each by its bytes. Ranks are compared name by name, and names
byte by byte. -/
def rank (names : List Name) : List Bytes := names.map (·.text.bytes)

/-- The path that names lead along from a directory. -/
def Path.below (path : Text) (names : List Name) : Text :=
  names.foldl (fun path name => Path.join path name.text) path

theorem Path.components_below (path : Text) (names : List Name) :
    components (below path names) = components path ++ names.map Component.name := by
  induction names generalizing path with
  | nil => simp [below]
  | cons name names ih =>
    have hdeeper := ih (join path name.text)
    rw [components_join path name.valid.2.1, component?_name] at hdeeper
    simpa [below] using hdeeper

theorem Path.below_injective {path : Text} {a b : List Name} (h : below path a = below path b) :
    a = b := by
  have hcomponents := congrArg components h
  rw [components_below, components_below, List.append_cancel_left_eq] at hcomponents
  exact List.map_injective_iff.mpr (fun _ _ h => Component.name.inj h) hcomponents

/-- An entry of a walk, with the names that lead to it from the directory where the walk begins. -/
structure Trail where
  names : List Name
  node : FileNode
  deriving DecidableEq, Repr

namespace Trail

/-- The order of a walk: directories before what they hold, and names by their bytes. -/
def Precedes (a b : Trail) : Prop := rank a.names < rank b.names

/-- The same entry on a walk that begins one directory higher. -/
def under (name : Name) (trail : Trail) : Trail := ⟨name :: trail.names, trail.node⟩

/-- An entry and those that lie below it. -/
def row (name : Name) (node : FileNode) (below : List Trail) : List Trail :=
  ⟨[name], node⟩ :: below.map (under name)

theorem mem_row {name : Name} {node : FileNode} {below : List Trail} {trail : Trail} :
    trail ∈ row name node below ↔
      trail = ⟨[name], node⟩ ∨ ∃ lower ∈ below, lower.under name = trail := by
  rw [row, List.mem_cons, List.mem_map]

theorem names_of_mem_row {name : Name} {node : FileNode} {below : List Trail} {trail : Trail}
    (h : trail ∈ row name node below) : ∃ rest, trail.names = name :: rest := by
  obtain rfl | ⟨lower, -, rfl⟩ := mem_row.mp h
  · exact ⟨[], rfl⟩
  · exact ⟨lower.names, rfl⟩

theorem precedes_under {name : Name} {a b : Trail} (h : a.Precedes b) :
    (a.under name).Precedes (b.under name) :=
  List.cons_lt_cons_iff.mpr (Or.inr ⟨rfl, h⟩)

theorem row_pairwise (name : Name) (node : FileNode) {below : List Trail}
    (hne : ∀ trail ∈ below, trail.names ≠ []) (h : below.Pairwise Precedes) :
    (row name node below).Pairwise Precedes := by
  rw [row, List.pairwise_cons, List.pairwise_map]
  refine ⟨?_, h.imp precedes_under⟩
  intro trail hmem
  obtain ⟨lower, hlower, rfl⟩ := List.mem_map.mp hmem
  obtain ⟨first, rest, hnames⟩ := List.exists_cons_of_ne_nil (hne lower hlower)
  refine List.cons_lt_cons_iff.mpr (Or.inr ⟨rfl, ?_⟩)
  rw [hnames]
  exact List.nil_lt_cons _ _

/-- Rows are in order if their first names are. -/
theorem rows_pairwise {names : List Name} {rows : Name → List Trail}
    (hnames : names.Pairwise fun a b => a.text.bytes < b.text.bytes)
    (hfirst : ∀ name, ∀ trail ∈ rows name, ∃ rest, trail.names = name :: rest)
    (hrows : ∀ name, (rows name).Pairwise Precedes) :
    (names.flatMap rows).Pairwise Precedes := by
  refine List.pairwise_flatMap.mpr ⟨fun name _ => hrows name, hnames.imp ?_⟩
  intro a b hlt first hmem second hmem'
  obtain ⟨rest, hrest⟩ := hfirst a first hmem
  obtain ⟨rest', hrest'⟩ := hfirst b second hmem'
  rw [Precedes, hrest, hrest']
  exact List.cons_lt_cons_iff.mpr (Or.inl hlt)

end Trail

namespace FileSystem

variable {fs : FileSystem}

/-- The entries that lie below a directory. A link leads to no further ones. -/
inductive Below (fs : FileSystem) : Location → List Name → FileNode → Prop where
  | entry {dir : Location} {name : Name} {node : FileNode} (h : fs.get? (name :: dir) = some node) :
      Below fs dir [name] node
  | deeper {dir : Location} {name : Name} {names : List Name} {node : FileNode}
      (h : fs.get? (name :: dir) = some .directory) (hbelow : Below fs (name :: dir) names node) :
      Below fs dir (name :: names) node

/-- The entries of a walk over an input directory. A link in the input directory leads to what lies
below its target. -/
inductive Walked (fs : FileSystem) (input : Text) : List Name → FileNode → Prop where
  | entry {root : Location} {name : Name} {node : FileNode}
      (hroot : fs.findDirectory input = .ok root) (h : fs.get? (name :: root) = some node) :
      Walked fs input [name] node
  | inside {root : Location} {name : Name} {names : List Name} {node : FileNode}
      (hroot : fs.findDirectory input = .ok root) (h : fs.get? (name :: root) = some .directory)
      (hbelow : fs.Below (name :: root) names node) : Walked fs input (name :: names) node
  | behind {root dir : Location} {name : Name} {target : Text} {names : List Name}
      {node : FileNode} (hroot : fs.findDirectory input = .ok root)
      (h : fs.get? (name :: root) = some (.link target))
      (hdir : fs.findDirectory (Path.join input name.text) = .ok dir)
      (hbelow : fs.Below dir names node) : Walked fs input (name :: names) node

section Growth

variable {before after : FileSystem} {New : Location → FileNode → Prop}

theorem Below.grows (hgrow : GrowsBy New before after) {dir : Location} {names : List Name}
    {node : FileNode} (h : before.Below dir names node) : after.Below dir names node := by
  induction h with
  | entry hget => exact .entry (hgrow.get?_of_some hget)
  | deeper hget _ ih => exact .deeper (hgrow.get?_of_some hget) ih

theorem Walked.grows (hgrow : GrowsBy New before after) {input : Text} {names : List Name}
    {node : FileNode} (h : before.Walked input names node) : after.Walked input names node := by
  cases h with
  | entry hroot hget => exact .entry (findDirectory_of_grows hgrow hroot) (hgrow.get?_of_some hget)
  | inside hroot hget hbelow =>
    exact .inside (findDirectory_of_grows hgrow hroot) (hgrow.get?_of_some hget)
      (hbelow.grows hgrow)
  | behind hroot hget hdir hbelow =>
    exact .behind (findDirectory_of_grows hgrow hroot) (hgrow.get?_of_some hget)
      (findDirectory_of_grows hgrow hdir) (hbelow.grows hgrow)

end Growth

/-- Whether an entry counts as a directory: it is one, or its path leads to one. -/
def countsAsDirectory (fs : FileSystem) (path : Text) (trail : Trail) : Bool :=
  match trail.node with
  | .directory => true
  | .link _ => fs.isDirectory (Path.below path trail.names)
  | .file _ => false

theorem Below.names_ne_nil {dir : Location} {names : List Name} {node : FileNode}
    (h : fs.Below dir names node) : names ≠ [] := by
  cases h <;> simp

/-- The name of the entry at a location, if that lies in the directory. -/
def nameIn? (dir : Location) : Location → Option Name
  | [] => none
  | name :: d => if d = dir then some name else none

theorem nameIn?_eq_some {dir location : Location} {name : Name}
    (h : nameIn? dir location = some name) : location = name :: dir := by
  cases location with
  | nil => simp [nameIn?] at h
  | cons n d =>
    simp only [nameIn?, Option.ite_none_right_eq_some, Option.some.injEq] at h
    rw [h.1, h.2]

theorem names_nodup (fs : FileSystem) (dir : Location) : (fs.names dir).Nodup := by
  have hnames : fs.names dir =
      inOrder Name.le ((fs.entries.map Prod.fst).filterMap (nameIn? dir)) := by
    rw [names, List.filterMap_map]
    rfl
  rw [hnames, (inOrder_perm Name.le _).nodup_iff]
  refine fs.distinct.filterMap ?_
  intro location other name hlocation hother
  rw [nameIn?_eq_some hlocation, nameIn?_eq_some hother]

/-- The names in a directory are different, and they are in the order of their bytes. -/
theorem names_pairwise (fs : FileSystem) (dir : Location) :
    (fs.names dir).Pairwise fun a b => a.text.bytes < b.text.bytes := by
  have hsorted : (fs.names dir).Pairwise (Name.le · ·) := by
    refine inOrder_pairwise ?_ ?_ _
    · exact fun _ _ _ => Text.bytewiseLe_trans
    · exact fun a b => Text.bytewiseLe_total a.text b.text
  refine (hsorted.and (fs.names_nodup dir)).imp ?_
  rintro a b ⟨hle, hne⟩
  exact Text.bytes_lt_of_bytewiseLe hle fun htext => hne (Name.eq_of_text_eq htext)

/-- The entries that lie below a directory, each directory before what it holds. -/
def trails (fs : FileSystem) (dir : Location) : List Trail :=
  (fs.names dir).flatMap fun name =>
    match h : fs.get? (name :: dir) with
    | none => []
    | some .directory =>
      have : fs.height - (name :: dir).length < fs.height - dir.length :=
        Nat.sub_succ_lt_self _ _ (length_lt_height h)
      Trail.row name .directory (trails fs (name :: dir))
    | some node => Trail.row name node []
termination_by fs.height - dir.length
decreasing_by assumption

/-- An entry of a directory and those that lie below it. -/
def trailsWithin (fs : FileSystem) (dir : Location) (name : Name) : List Trail :=
  match fs.get? (name :: dir) with
  | none => []
  | some .directory => Trail.row name .directory (fs.trails (name :: dir))
  | some node => Trail.row name node []

theorem trails_eq (fs : FileSystem) (dir : Location) :
    fs.trails dir = (fs.names dir).flatMap (fs.trailsWithin dir) := by
  rw [trails]
  congr 1
  funext name
  rw [trailsWithin]
  split <;> simp_all

/-- The directory in which a walk goes on behind an entry of the input directory. -/
def entered (fs : FileSystem) (root : Location) (input : Text) (name : Name) :
    FileNode → Option Location
  | .directory => some (name :: root)
  | .link _ => (fs.findDirectory (Path.join input name.text)).toOption
  | .file _ => none

/-- An entry of the input directory and those that lie below it. -/
def trailsAt (fs : FileSystem) (root : Location) (input : Text) (name : Name) : List Trail :=
  match fs.get? (name :: root) with
  | none => []
  | some node => Trail.row name node ((fs.entered root input name node).elim [] fs.trails)

/-- All entries of a walk over an input directory, in order. -/
def walked (fs : FileSystem) (input : Text) : Except FileError (List Trail) :=
  (fs.findDirectory input).map fun root => (fs.names root).flatMap (fs.trailsAt root input)

theorem mem_names_of_get? {dir : Location} {name : Name} {node : FileNode}
    (h : fs.get? (name :: dir) = some node) : name ∈ fs.names dir :=
  mem_names_iff.mpr ⟨node, h⟩

theorem below_of_mem_trails {dir : Location} {trail : Trail} (h : trail ∈ fs.trails dir) :
    fs.Below dir trail.names trail.node := by
  induction dir using directory_induction fs generalizing trail with
  | step dir ih =>
    rw [trails_eq, List.mem_flatMap] at h
    obtain ⟨name, -, hmem⟩ := h
    rw [trailsWithin] at hmem
    split at hmem
    · simp at hmem
    · next hget =>
      obtain rfl | ⟨lower, hlower, rfl⟩ := Trail.mem_row.mp hmem
      · exact .entry hget
      · exact .deeper hget (ih name hget hlower)
    · next hget =>
      obtain rfl | ⟨lower, hlower, -⟩ := Trail.mem_row.mp hmem
      · exact .entry hget
      · simp at hlower

theorem mem_trails_of_below {dir : Location} {names : List Name} {node : FileNode}
    (h : fs.Below dir names node) : ⟨names, node⟩ ∈ fs.trails dir := by
  induction h with
  | @entry dir name node h =>
    rw [trails_eq, List.mem_flatMap]
    refine ⟨name, mem_names_of_get? h, ?_⟩
    rw [trailsWithin, h]
    cases node <;> exact Trail.mem_row.mpr (Or.inl rfl)
  | @deeper dir name names node h _ ih =>
    rw [trails_eq, List.mem_flatMap]
    refine ⟨name, mem_names_of_get? h, ?_⟩
    rw [trailsWithin, h]
    exact Trail.mem_row.mpr (Or.inr ⟨_, ih, rfl⟩)

theorem trails_pairwise (fs : FileSystem) (dir : Location) :
    (fs.trails dir).Pairwise Trail.Precedes := by
  induction dir using directory_induction fs with
  | step dir ih =>
    rw [trails_eq]
    refine Trail.rows_pairwise (fs.names_pairwise dir) ?_ ?_
    · intro name trail hmem
      rw [trailsWithin] at hmem
      split at hmem
      · simp at hmem
      · exact Trail.names_of_mem_row hmem
      · exact Trail.names_of_mem_row hmem
    · intro name
      rw [trailsWithin]
      split
      · exact .nil
      · next h =>
        exact Trail.row_pairwise _ _ (fun _ hmem => (below_of_mem_trails hmem).names_ne_nil)
          (ih name h)
      · exact Trail.row_pairwise _ _ (by simp) .nil

theorem mem_walked_iff {input : Text} {trails : List Trail} (h : fs.walked input = .ok trails)
    {trail : Trail} : trail ∈ trails ↔ fs.Walked input trail.names trail.node := by
  rw [walked] at h
  cases hroot : fs.findDirectory input with
  | error e => simp [hroot, Except.map] at h
  | ok root =>
    simp only [hroot, Except.map, Except.ok.injEq] at h
    rw [← h, List.mem_flatMap]
    constructor
    · rintro ⟨name, -, hmem⟩
      rw [trailsAt] at hmem
      split at hmem
      · simp at hmem
      · next node hget =>
        obtain rfl | ⟨lower, hlower, rfl⟩ := Trail.mem_row.mp hmem
        · exact .entry hroot hget
        · cases node with
          | file => simp [entered] at hlower
          | directory => exact .inside hroot hget (below_of_mem_trails hlower)
          | link target =>
            cases hdir : fs.findDirectory (Path.join input name.text) with
            | error e => simp [entered, hdir, Except.toOption] at hlower
            | ok dir =>
              simp only [entered, hdir, Except.toOption, Option.elim_some] at hlower
              exact .behind hroot hget hdir (below_of_mem_trails hlower)
    · obtain ⟨names, node⟩ := trail
      intro hwalked
      cases hwalked with
      | @entry root' name _ hroot' hget =>
        cases hroot.symm.trans hroot'
        refine ⟨name, mem_names_of_get? hget, ?_⟩
        rw [trailsAt, hget]
        exact Trail.mem_row.mpr (Or.inl rfl)
      | @inside root' name names _ hroot' hget hbelow =>
        cases hroot.symm.trans hroot'
        refine ⟨name, mem_names_of_get? hget, ?_⟩
        rw [trailsAt, hget]
        exact Trail.mem_row.mpr (Or.inr ⟨_, mem_trails_of_below hbelow, rfl⟩)
      | @behind root' dir name target names _ hroot' hget hdir hbelow =>
        cases hroot.symm.trans hroot'
        refine ⟨name, mem_names_of_get? hget, ?_⟩
        rw [trailsAt, hget]
        refine Trail.mem_row.mpr (Or.inr ⟨⟨names, node⟩, ?_, rfl⟩)
        simp only [entered, hdir, Except.toOption, Option.elim_some]
        exact mem_trails_of_below hbelow

theorem walked_pairwise {input : Text} {trails : List Trail} (h : fs.walked input = .ok trails) :
    trails.Pairwise Trail.Precedes := by
  rw [walked] at h
  cases hroot : fs.findDirectory input with
  | error e => simp [hroot, Except.map] at h
  | ok root =>
    simp only [hroot, Except.map, Except.ok.injEq] at h
    rw [← h]
    refine Trail.rows_pairwise (fs.names_pairwise root) ?_ ?_
    · intro name trail hmem
      rw [trailsAt] at hmem
      split at hmem
      · simp at hmem
      · exact Trail.names_of_mem_row hmem
    · intro name
      rw [trailsAt]
      split
      · exact .nil
      · next node _ =>
        cases fs.entered root input name node with
        | none => exact Trail.row_pairwise _ _ (by simp) .nil
        | some dir =>
          exact Trail.row_pairwise _ _ (fun _ hmem => (below_of_mem_trails hmem).names_ne_nil)
            (fs.trails_pairwise dir)

end FileSystem

section Stops

/-- Whether an entry cannot be visited. -/
def Stop.isLost : Stop → Bool
  | lost .. => true
  | _ => false

/-- What a report can tell of a stop: its path, and whether it counts as a directory. -/
def Stop.sight (stop : Stop) : Text × Bool := (stop.path, stop.isDirectory)

namespace FileSystem

variable {fs : FileSystem}

/-- What a report can tell of an entry of a walk. -/
def sight (fs : FileSystem) (path : Text) (trail : Trail) : Text × Bool :=
  (Path.below path trail.names, fs.countsAsDirectory path trail)

theorem map_sight_row (path : Text) (name : Name) (node : FileNode) (below : List Trail) :
    (Trail.row name node below).map (fs.sight path) =
      fs.sight path ⟨[name], node⟩ :: below.map (fs.sight (Path.join path name.text)) := by
  rw [Trail.row, List.map_cons, List.map_map]
  rfl

theorem sight_link (path : Text) (name : Name) (target : Text) :
    fs.sight path ⟨[name], .link target⟩ =
      (Path.join path name.text, fs.isDirectory (Path.join path name.text)) := rfl

/-- A walk through a directory stops at the entries below it, in the same order. -/
theorem sight_stopsBelow (dir : Location) (depth : Nat) (path : Text)
    (hfound : ∀ stop ∈ fs.stopsBelow depth dir path, stop.isLost = false) :
    (fs.stopsBelow depth dir path).map Stop.sight = (fs.trails dir).map (fs.sight path) := by
  induction dir using directory_induction fs generalizing depth path with
  | step dir ih =>
    rw [stopsBelow_eq] at hfound ⊢
    split at hfound
    · simp [Stop.isLost] at hfound
    · next hlong =>
      rw [if_neg hlong, trails_eq, List.map_flatMap, List.map_flatMap]
      refine List.flatMap_congr ?_
      intro name hname
      have hrow : ∀ stop ∈ fs.stopsWithin depth dir path name, stop.isLost = false :=
        fun stop hstop => hfound stop (List.mem_flatMap.mpr ⟨name, hname, hstop⟩)
      rw [stopsWithin] at hrow ⊢
      rw [trailsWithin]
      obtain ⟨node, hget⟩ := mem_names_iff.mp hname
      rw [hget] at hrow ⊢
      cases node with
      | file content => rfl
      | directory =>
        rw [List.forall_mem_cons] at hrow
        rw [map_sight_row, List.map_cons, ih name hget _ _ hrow.2]
        rfl
      | link target =>
        rw [map_sight_row, sight_link]
        simp only
        split
        · next hdirectory => simp [hdirectory, Stop.sight, Stop.path, Stop.isDirectory]
        · next hdirectory => simp [hdirectory, Stop.sight, Stop.path, Stop.isDirectory]

theorem sight_stopsAt {root : Location} {input : Text} {name : Name} (hname : name ∈ fs.names root)
    (hfound : ∀ stop ∈ fs.stopsAt root input name, stop.isLost = false) :
    (fs.stopsAt root input name).map Stop.sight =
      (fs.trailsAt root input name).map (fs.sight input) := by
  obtain ⟨node, hget⟩ := mem_names_iff.mp hname
  rw [stopsAt] at hfound ⊢
  rw [trailsAt]
  simp only [hget] at hfound ⊢
  split at hfound
  · simp [Stop.isLost] at hfound
  · next hlong =>
    rw [if_neg hlong, map_sight_row]
    cases node with
    | file content => rfl
    | directory =>
      rw [List.forall_mem_cons] at hfound
      rw [List.map_cons, sight_stopsBelow _ _ _ hfound.2]
      rfl
    | link target =>
      rw [sight_link, entered]
      cases hfind : fs.findDirectory (Path.join input name.text) with
      | ok dir =>
        have hdirectory : fs.isDirectory (Path.join input name.text) :=
          isDirectory_iff_findDirectory.mpr ⟨dir, hfind⟩
        simp only [findDirectory_eq_ok_iff.mp hfind, List.forall_mem_cons] at hfound ⊢
        rw [List.map_cons, sight_stopsBelow _ _ _ hfound.2, hdirectory]
        rfl
      | error e =>
        have hnone : ∀ dir, fs.land .target (Path.join input name.text) ≠
            .ok (.node dir .directory) := by
          intro dir hland
          rw [findDirectory_eq_ok_iff.mpr hland] at hfind
          simp at hfind
        have hdirectory : fs.isDirectory (Path.join input name.text) = false := by
          rw [Bool.eq_false_iff, ne_eq, isDirectory_iff]
          rintro ⟨dir, hland⟩
          exact hnone dir hland
        -- The match on where the path leads falls through, by `hnone`.
        simp only [hdirectory]
        rfl

/-- The stops of a run are the entries of the walk, in the same order. -/
theorem sight_itinerary {input : Text} {stops : List Stop} (h : fs.itinerary input = .ok stops)
    (hfound : ∀ stop ∈ stops, stop.isLost = false) :
    ∃ trails, fs.walked input = .ok trails ∧
      stops.map Stop.sight = trails.map (fs.sight input) := by
  rw [itinerary] at h
  cases hroot : fs.findDirectory input with
  | error e => simp [hroot, Except.map] at h
  | ok root =>
    simp only [hroot, Except.map, Except.ok.injEq] at h
    refine ⟨(fs.names root).flatMap (fs.trailsAt root input), by simp [walked, hroot, Except.map], ?_⟩
    rw [← h, List.map_flatMap, List.map_flatMap]
    refine List.flatMap_congr fun name hname => sight_stopsAt hname fun stop hstop => ?_
    exact hfound stop (h ▸ List.mem_flatMap.mpr ⟨name, hname, hstop⟩)

end FileSystem

end Stops

end TokenCorpus
