import TokenCorpus.Text
import TokenCorpus.Sorting

/-!
File systems.

A file system says which node is at which location. A location is the list of names from the node
up to the root, so a directory's entries are the locations one name longer. The root directory is
always there, and so is home, the directory in which paths start.

The file systems meant are plain ones: files, directories and symbolic links, each at one location
and with a name that is text, and nobody else changes them meanwhile. There are no permissions, no
hard links, no devices and no disks that fail or are full.
-/

namespace TokenCorpus

/-- What an entry of a directory may be called. -/
def Name.Valid (t : Text) : Prop :=
  t ≠ [] ∧ '/' ∉ t ∧ t ≠ ['.'] ∧ t ≠ ['.', '.'] ∧ t.byteLength ≤ 255

instance (t : Text) : Decidable (Name.Valid t) := by unfold Name.Valid; infer_instance

/-- The name of a directory entry. -/
structure Name where
  text : Text
  valid : Name.Valid text
  deriving DecidableEq, Repr

theorem Name.eq_of_text_eq {a b : Name} (h : a.text = b.text) : a = b := by
  cases a
  cases b
  simpa using h

/-- Names are ordered by their bytes. -/
def Name.le (a b : Name) : Bool := a.text.bytewiseLe b.text

/-- Where a node is: its name, the name of its directory, and so on up to the root. -/
abbrev Location := List Name

/-- What a location may hold. -/
inductive FileNode where
  | file (content : Bytes)
  | link (target : Text)
  | directory
  deriving DecidableEq, Repr, Inhabited

/-- A node with other contents, if it is a file. -/
def FileNode.refill (content : Bytes) : FileNode → FileNode
  | .file _ => .file content
  | node => node

theorem FileNode.refill_eq_directory {content : Bytes} {node : FileNode} :
    FileNode.refill content node = .directory ↔ node = .directory := by
  cases node <;> simp [FileNode.refill]

/-- A file system. Every node but the root lies in a directory. -/
structure FileSystem where
  entries : List (Location × FileNode)
  distinct : (entries.map Prod.fst).Nodup
  rooted : ∀ e ∈ entries, ∃ name dir, e.1 = name :: dir ∧
    (dir = [] ∨ (dir, FileNode.directory) ∈ entries)
  /-- The directory in which paths start. -/
  home : Location
  homeThere : home = [] ∨ (home, FileNode.directory) ∈ entries

namespace FileSystem

/-- The file system with the root directory alone. -/
def empty : FileSystem := ⟨[], List.nodup_nil, by simp, [], Or.inl rfl⟩

instance : Inhabited FileSystem := ⟨empty⟩

/-- The node at a location. -/
def get? (fs : FileSystem) (location : Location) : Option FileNode :=
  if location = [] then some .directory
  else (fs.entries.find? (·.1 = location)).map Prod.snd

@[simp] theorem get?_root (fs : FileSystem) : fs.get? [] = some .directory := rfl

/-- Where keys are distinct, each key has one value. -/
theorem eq_of_mem_of_nodup {l : List (Location × FileNode)} (hl : (l.map Prod.fst).Nodup)
    {location : Location} {a b : FileNode} (ha : (location, a) ∈ l) (hb : (location, b) ∈ l) :
    a = b := by
  induction l with
  | nil => simp at ha
  | cons e l ih =>
    simp only [List.map_cons, List.nodup_cons] at hl
    rcases List.mem_cons.mp ha with ha | ha <;> rcases List.mem_cons.mp hb with hb | hb
    · exact congrArg Prod.snd (ha.trans hb.symm)
    · exact absurd (List.mem_map.mpr ⟨_, hb, (congrArg Prod.fst ha : location = e.1)⟩) hl.1
    · exact absurd (List.mem_map.mpr ⟨_, ha, (congrArg Prod.fst hb : location = e.1)⟩) hl.1
    · exact ih hl.2 ha hb

theorem get?_eq_some_iff (fs : FileSystem) {location : Location} {node : FileNode}
    (hne : location ≠ []) : fs.get? location = some node ↔ (location, node) ∈ fs.entries := by
  simp only [get?, if_neg hne, Option.map_eq_some_iff]
  constructor
  · rintro ⟨⟨l, n⟩, hfind, rfl⟩
    have hl := List.find?_some hfind
    simp only [decide_eq_true_eq] at hl
    exact hl ▸ List.mem_of_find?_eq_some hfind
  · intro hmem
    cases hfind : fs.entries.find? (·.1 = location) with
    | none => exact absurd (List.find?_eq_none.mp hfind _ hmem) (by simp)
    | some e =>
      have hl := List.find?_some hfind
      simp only [decide_eq_true_eq] at hl
      have he := List.mem_of_find?_eq_some hfind
      exact ⟨e, rfl, eq_of_mem_of_nodup fs.distinct (hl ▸ he : (location, e.2) ∈ fs.entries) hmem⟩

@[simp] theorem get?_home (fs : FileSystem) : fs.get? fs.home = some .directory := by
  rcases fs.homeThere with h | h
  · rw [h, get?_root]
  · by_cases hroot : fs.home = []
    · rw [hroot, get?_root]
    · exact (get?_eq_some_iff fs hroot).mpr h

/-- The same file system with paths starting in another directory. -/
def enter (fs : FileSystem) (dir : Location) (isDirectory : fs.get? dir = some .directory) :
    FileSystem where
  entries := fs.entries
  distinct := fs.distinct
  rooted := fs.rooted
  home := dir
  homeThere := by
    by_cases hroot : dir = []
    · exact Or.inl hroot
    · exact Or.inr ((get?_eq_some_iff fs hroot).mp isDirectory)

/-- What lies somewhere lies in a directory. -/
theorem get?_parent (fs : FileSystem) {name : Name} {dir : Location} {node : FileNode}
    (h : fs.get? (name :: dir) = some node) : fs.get? dir = some .directory := by
  rw [get?_eq_some_iff fs (by simp)] at h
  obtain ⟨n, d, heq, hd⟩ := fs.rooted _ h
  obtain ⟨rfl, rfl⟩ := List.cons.inj heq
  by_cases hroot : dir = []
  · simp [hroot]
  · exact (get?_eq_some_iff fs hroot).mpr (hd.resolve_left hroot)

/-- The file system with one more node. -/
def insert (fs : FileSystem) (dir : Location) (name : Name)
    (isDirectory : fs.get? dir = some .directory) (isFree : fs.get? (name :: dir) = none)
    (node : FileNode) : FileSystem where
  entries := fs.entries ++ [(name :: dir, node)]
  distinct := by
    have hnot : ∀ e ∈ fs.entries, e.1 ≠ name :: dir := by
      intro e he heq
      have := (get?_eq_some_iff fs (by simp)).mpr (heq ▸ he : (name :: dir, e.2) ∈ fs.entries)
      simp [isFree] at this
    simp only [List.map_append, List.map_cons, List.map_nil]
    rw [List.nodup_append]
    refine ⟨fs.distinct, by simp, ?_⟩
    intro a ha b hb
    obtain ⟨e, he, rfl⟩ := List.mem_map.mp ha
    rw [List.mem_singleton.mp hb]
    exact hnot e he
  rooted := by
    intro e he
    rcases List.mem_append.mp he with he | he
    · obtain ⟨n, d, heq, hd⟩ := fs.rooted e he
      exact ⟨n, d, heq, hd.imp_right fun h => List.mem_append_left _ h⟩
    · obtain rfl := List.mem_singleton.mp he
      refine ⟨name, dir, rfl, ?_⟩
      by_cases hroot : dir = []
      · exact Or.inl hroot
      · exact Or.inr (List.mem_append_left _ ((get?_eq_some_iff fs hroot).mp isDirectory))
  home := fs.home
  homeThere := fs.homeThere.imp_right fun h => List.mem_append_left _ h

/-- The file system after the file at a location has been given other contents. -/
def refill (fs : FileSystem) (location : Location) (content : Bytes) : FileSystem where
  entries := fs.entries.map fun e =>
    (e.1, if e.1 = location then FileNode.refill content e.2 else e.2)
  distinct := by simpa [List.map_map, Function.comp_def] using fs.distinct
  rooted := by
    intro e he
    obtain ⟨e', he', rfl⟩ := List.mem_map.mp he
    obtain ⟨n, d, heq, hd⟩ := fs.rooted e' he'
    refine ⟨n, d, heq, hd.imp_right fun h => List.mem_map.mpr ⟨_, h, ?_⟩⟩
    simp only [FileNode.refill, ite_self]
  home := fs.home
  homeThere := fs.homeThere.imp_right fun h => List.mem_map.mpr ⟨_, h, by
    simp only [FileNode.refill, ite_self]⟩

/-- The file system without the node at a location and all below it. Home and the directories above
it stay. -/
def erase (fs : FileSystem) (location : Location) : FileSystem where
  entries := fs.entries.filter fun e => !location.isSuffixOf e.1 || e.1.isSuffixOf fs.home
  distinct := List.Sublist.nodup (List.filter_sublist.map _) fs.distinct
  rooted := by
    intro e he
    obtain ⟨he, hkept⟩ := List.mem_filter.mp he
    obtain ⟨n, d, heq, hd⟩ := fs.rooted e he
    refine ⟨n, d, heq, hd.imp_right fun h => List.mem_filter.mpr ⟨h, ?_⟩⟩
    rw [Bool.or_eq_true, Bool.not_eq_true'] at hkept ⊢
    rcases hkept with hkept | hkept
    · left
      rw [Bool.eq_false_iff] at hkept ⊢
      intro hsuffix
      apply hkept
      rw [List.isSuffixOf_iff_suffix] at hsuffix ⊢
      rw [heq]
      exact hsuffix.trans (List.suffix_cons n d)
    · right
      rw [List.isSuffixOf_iff_suffix] at hkept ⊢
      exact (List.suffix_cons n d).trans (heq ▸ hkept)
  home := fs.home
  homeThere := fs.homeThere.imp_right fun h => List.mem_filter.mpr ⟨h, by
    rw [Bool.or_eq_true]
    exact Or.inr (List.isSuffixOf_iff_suffix.mpr (List.suffix_refl _))⟩

/-- The directories, without the root. -/
def directories (fs : FileSystem) : List Location :=
  (fs.entries.filter (·.2 = .directory)).map Prod.fst

theorem mem_directories (fs : FileSystem) {location : Location} (hne : location ≠ []) :
    location ∈ fs.directories ↔ fs.get? location = some .directory := by
  rw [get?_eq_some_iff fs hne]
  simp only [directories, List.mem_map, List.mem_filter, decide_eq_true_eq]
  constructor
  · rintro ⟨⟨l, n⟩, ⟨he, rfl⟩, rfl⟩
    exact he
  · intro h
    exact ⟨_, ⟨h, rfl⟩, rfl⟩

theorem directories_insert (fs : FileSystem) {dir : Location} {name : Name}
    (isDirectory : fs.get? dir = some .directory) (isFree : fs.get? (name :: dir) = none)
    {node : FileNode} (hnode : node ≠ .directory) :
    (fs.insert dir name isDirectory isFree node).directories = fs.directories := by
  simp [directories, insert, List.filter_append, hnode]

/-- The length of the longest location of a directory. -/
def height (fs : FileSystem) : Nat := (fs.directories.map List.length).foldr max 0

theorem length_le_height (fs : FileSystem) {location : Location}
    (h : location ∈ fs.directories) : location.length ≤ fs.height := by
  have hmax : ∀ {l : List Nat} {n : Nat}, n ∈ l → n ≤ l.foldr max 0 := by
    intro l n hn
    induction l with
    | nil => simp at hn
    | cons m l ih =>
      rcases List.mem_cons.mp hn with rfl | hn
      · exact Nat.le_max_left _ _
      · exact Nat.le_trans (ih hn) (Nat.le_max_right _ _)
  exact hmax (List.mem_map.mpr ⟨location, h, rfl⟩)

/-- The names in a directory, in order. -/
def names (fs : FileSystem) (dir : Location) : List Name :=
  inOrder Name.le <| fs.entries.filterMap fun e =>
    match e.1 with
    | [] => none
    | name :: d => if d = dir then some name else none

end FileSystem

end TokenCorpus
