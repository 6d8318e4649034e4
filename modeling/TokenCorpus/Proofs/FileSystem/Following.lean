import TokenCorpus.Proofs.FileSystem.Growth

/-!
Where paths lead.

`land` follows a path as `place` does but carries no proofs, so that two file systems can be
compared. The comparison comes in two parts. File systems that agree at the locations a path looks
at lead it to the same place; and where files are added, a path leads to the same place as before
unless it meets one of them.
-/

namespace TokenCorpus.FileSystem

/-- Where a path leads, without the proof that it is so. -/
inductive Landing where
  | node (location : Location) (node : FileNode)
  | free (dir : Location) (name : Name)
  deriving DecidableEq, Repr

/-- What there is to know about a place. -/
def Place.landing {fs : FileSystem} : Place fs → Landing
  | .node location found _ => .node location found
  | .free dir name _ _ => .free dir name

/-- Follows steps up to the next link that has to be replaced. -/
def landUntilLink (fs : FileSystem) (lookup : Lookup)
    (jump : Location → List Component → Except FileError Landing) (dir : Location) :
    List Component → Except FileError Landing
  | [] => .ok (.node dir .directory)
  | .here :: rest => landUntilLink fs lookup jump dir rest
  | .slash :: rest => landUntilLink fs lookup jump dir rest
  | .up :: rest => landUntilLink fs lookup jump dir.tail rest
  | .tooLong :: rest => .error (if lookup.refuses rest then .isADirectory else .nameTooLong)
  | .name name :: rest =>
    if lookup.refuses rest then .error .isADirectory
    else
      match fs.get? (name :: dir) with
      | none => if rest = [] then .ok (.free dir name) else .error .notFound
      | some .directory => landUntilLink fs lookup jump (name :: dir) rest
      | some (.file content) =>
        if rest = [] then .ok (.node (name :: dir) (.file content)) else .error .notADirectory
      | some (.link target) =>
        if rest = [] ∧ lookup = .entry then .ok (.node (name :: dir) (.link target))
        else if Path.isAbsolute target then jump [] (Path.steps target ++ rest)
        else jump dir (Path.steps target ++ rest)

/-- Follows steps, replacing at most `links` links. -/
def landFrom (fs : FileSystem) (lookup : Lookup) (links : Nat) (dir : Location)
    (path : List Component) : Except FileError Landing :=
  match links with
  | 0 => landUntilLink fs lookup (fun _ _ => .error .linkLoop) dir path
  | links + 1 => landUntilLink fs lookup (landFrom fs lookup links) dir path

/-- Where a path leads. -/
def land (fs : FileSystem) (lookup : Lookup) (path : Text) : Except FileError Landing :=
  (fs.place lookup path).map Place.landing

theorem followUntilLink_landing (fs : FileSystem) (lookup : Lookup)
    {jump : (dir : Location) → fs.get? dir = some .directory → List Component →
      Except FileError (Place fs)}
    {jump' : Location → List Component → Except FileError Landing}
    (hjump : ∀ dir hdir path, (jump dir hdir path).map Place.landing = jump' dir path)
    (dir : Location) (hdir : fs.get? dir = some .directory) (path : List Component) :
    (followUntilLink fs lookup jump dir hdir path).map Place.landing =
      landUntilLink fs lookup jump' dir path := by
  induction path generalizing dir with
  | nil => rfl
  | cons step rest ih =>
    cases step with
    | here => exact ih dir hdir
    | slash => exact ih dir hdir
    | up => exact ih dir.tail (fs.get?_tail hdir)
    | tooLong => rfl
    | name name =>
      simp only [followUntilLink, landUntilLink]
      split
      · rfl
      · split
        · next h =>
          simp only [h]
          split <;> rfl
        · next h =>
          simp only [h]
          exact ih _ h
        · next content h =>
          simp only [h]
          split <;> rfl
        · next target h =>
          simp only [h]
          split
          · rfl
          · split
            · exact hjump _ _ _
            · exact hjump _ _ _

theorem follow_landing (fs : FileSystem) (lookup : Lookup) (links : Nat) (dir : Location)
    (hdir : fs.get? dir = some .directory) (path : List Component) :
    (fs.follow lookup links dir hdir path).map Place.landing =
      fs.landFrom lookup links dir path := by
  induction links generalizing dir path with
  | zero => exact followUntilLink_landing fs lookup (fun _ _ _ => rfl) dir hdir path
  | succ links ih => exact followUntilLink_landing fs lookup ih dir hdir path

theorem placeOf_landing (fs : FileSystem) (lookup : Lookup) (absolute : Bool)
    (path : List Component) :
    (fs.placeOf lookup absolute path).map Place.landing =
      fs.landFrom lookup maxLinks (fs.origin absolute) path :=
  follow_landing fs lookup maxLinks _ _ path

theorem land_eq (fs : FileSystem) (lookup : Lookup) (path : Text) :
    fs.land lookup path =
      if Path.holdsNul path then .error .nulInPath
      else if path = [] then .error .notFound
      else if Path.isTooLong path then .error .nameTooLong
      else fs.landFrom lookup maxLinks (fs.origin (Path.isAbsolute path)) (Path.steps path) := by
  simp only [land, place]
  split
  · rfl
  · split
    · rfl
    · split
      · rfl
      · exact placeOf_landing fs lookup _ _

/-- A path leads only to what is there. -/
theorem get?_of_land {fs : FileSystem} {lookup : Lookup} {path : Text} {location : Location}
    {node : FileNode} (h : fs.land lookup path = .ok (.node location node)) :
    fs.get? location = some node := by
  rw [land] at h
  generalize fs.place lookup path = found at h
  cases found with
  | error => cases h
  | ok place =>
    cases place with
    | free => cases h
    | node _ _ isThere =>
      cases h
      exact isThere

section LookedAt

/-- The locations at which following steps looks, up to the next link that has to be replaced. -/
def lookedAtUntilLink (fs : FileSystem)
    (jump : Location → List Component → List Location) (dir : Location) :
    List Component → List Location
  | [] => []
  | .here :: rest => lookedAtUntilLink fs jump dir rest
  | .slash :: rest => lookedAtUntilLink fs jump dir rest
  | .up :: rest => lookedAtUntilLink fs jump dir.tail rest
  | .tooLong :: _ => []
  | .name name :: rest =>
    (name :: dir) ::
      match fs.get? (name :: dir) with
      | some .directory => lookedAtUntilLink fs jump (name :: dir) rest
      | some (.link target) =>
        if Path.isAbsolute target then jump [] (Path.steps target ++ rest)
        else jump dir (Path.steps target ++ rest)
      | _ => []

/-- The locations at which following steps looks, replacing at most `links` links. -/
def lookedAtFrom (fs : FileSystem) (links : Nat) (dir : Location) (path : List Component) :
    List Location :=
  match links with
  | 0 => lookedAtUntilLink fs (fun _ _ => []) dir path
  | links + 1 => lookedAtUntilLink fs (lookedAtFrom fs links) dir path

/-- The locations at which a path makes the file system look. -/
def lookedAt (fs : FileSystem) (path : Text) : List Location :=
  fs.lookedAtFrom maxLinks (fs.origin (Path.isAbsolute path)) (Path.steps path)

variable {fs other : FileSystem} {lookup : Lookup}

theorem landUntilLink_congr {jump jump' : Location → List Component → Except FileError Landing}
    {looks : Location → List Component → List Location}
    (hjump : ∀ dir path, (∀ location ∈ looks dir path, other.get? location = fs.get? location) →
      jump' dir path = jump dir path)
    (dir : Location) (path : List Component)
    (hagree : ∀ location ∈ fs.lookedAtUntilLink looks dir path,
      other.get? location = fs.get? location) :
    other.landUntilLink lookup jump' dir path = fs.landUntilLink lookup jump dir path := by
  induction path generalizing dir with
  | nil => rfl
  | cons step rest ih =>
    cases step with
    | here => exact ih dir hagree
    | slash => exact ih dir hagree
    | up => exact ih dir.tail hagree
    | tooLong => rfl
    | name name =>
      simp only [lookedAtUntilLink, List.mem_cons, forall_eq_or_imp] at hagree
      obtain ⟨hname, hrest⟩ := hagree
      simp only [landUntilLink, hname]
      split
      · rfl
      · split
        · rfl
        · next h =>
          rw [h] at hrest
          exact ih _ hrest
        · rfl
        · next target h =>
          rw [h] at hrest
          simp only at hrest
          split
          · rfl
          · split
            · next habsolute =>
              rw [if_pos habsolute] at hrest
              exact hjump _ _ hrest
            · next habsolute =>
              rw [if_neg habsolute] at hrest
              exact hjump _ _ hrest

theorem landFrom_congr (links : Nat) (dir : Location) (path : List Component)
    (hagree : ∀ location ∈ fs.lookedAtFrom links dir path,
      other.get? location = fs.get? location) :
    other.landFrom lookup links dir path = fs.landFrom lookup links dir path := by
  induction links generalizing dir path with
  | zero => exact landUntilLink_congr (fun _ _ _ => rfl) dir path hagree
  | succ links ih => exact landUntilLink_congr ih dir path hagree

/-- A path leads to the same place in file systems that agree wherever it makes them look. -/
theorem land_congr {path : Text} (hhome : other.home = fs.home)
    (hagree : ∀ location ∈ fs.lookedAt path, other.get? location = fs.get? location) :
    other.land lookup path = fs.land lookup path := by
  have horigin : other.origin (Path.isAbsolute path) = fs.origin (Path.isAbsolute path) := by
    simp only [origin, hhome]
  rw [land_eq, land_eq, horigin, landFrom_congr _ _ _ hagree]

end LookedAt

section Kept

variable {before after : FileSystem} {lookup : Lookup} {location : Location} {node : FileNode}

/-- All that a path to a node can meet is still there: directories, links and the node itself. -/
def Kept (before after : FileSystem) (location : Location) (node : FileNode) : Prop :=
  ∀ place found, before.get? place = some found →
    (∀ content, found = .file content → place = location ∧ found = node) →
    after.get? place = some found

theorem landUntilLink_kept (hkept : Kept before after location node)
    {jump jump' : Location → List Component → Except FileError Landing}
    (hjump : ∀ dir path, jump dir path = .ok (.node location node) →
      jump' dir path = .ok (.node location node))
    (dir : Location) (path : List Component)
    (h : before.landUntilLink lookup jump dir path = .ok (.node location node)) :
    after.landUntilLink lookup jump' dir path = .ok (.node location node) := by
  induction path generalizing dir with
  | nil => exact h
  | cons step rest ih =>
    cases step with
    | here => exact ih dir h
    | slash => exact ih dir h
    | up => exact ih dir.tail h
    | tooLong => simp [landUntilLink] at h
    | name name =>
      simp only [landUntilLink] at h ⊢
      split at h
      · simp at h
      · next haccepted =>
        rw [if_neg haccepted]
        cases hget : before.get? (name :: dir) with
        | none =>
          rw [hget] at h
          simp only at h
          split at h <;> simp at h
        | some found =>
          rw [hget] at h
          cases found with
          | directory =>
            rw [hkept _ _ hget (by simp)]
            exact ih _ h
          | file content =>
            simp only at h
            split at h
            · next hend =>
              simp only [Except.ok.injEq, Landing.node.injEq] at h
              obtain ⟨rfl, rfl⟩ := h
              rw [hkept _ _ hget fun _ _ => ⟨rfl, rfl⟩, hend]
              rfl
            · simp at h
          | link target =>
            rw [hkept _ _ hget (by simp)]
            simp only at h ⊢
            split at h
            · next hend =>
              rw [if_pos hend]
              exact h
            · next hend =>
              rw [if_neg hend]
              split at h
              · next habsolute =>
                rw [if_pos habsolute]
                exact hjump _ _ h
              · next habsolute =>
                rw [if_neg habsolute]
                exact hjump _ _ h

theorem landFrom_kept (hkept : Kept before after location node) (links : Nat) (dir : Location)
    (path : List Component)
    (h : before.landFrom lookup links dir path = .ok (.node location node)) :
    after.landFrom lookup links dir path = .ok (.node location node) := by
  induction links generalizing dir path with
  | zero => exact landUntilLink_kept hkept (fun _ _ h => by simp at h) dir path h
  | succ links ih => exact landUntilLink_kept hkept ih dir path h

/-- A path that leads to a node leads to it wherever all that it can meet is still there. -/
theorem land_kept (hhome : after.home = before.home) (hkept : Kept before after location node)
    {path : Text} (h : before.land lookup path = .ok (.node location node)) :
    after.land lookup path = .ok (.node location node) := by
  have horigin : after.origin (Path.isAbsolute path) = before.origin (Path.isAbsolute path) := by
    simp only [origin, hhome]
  rw [land_eq] at h ⊢
  rw [horigin]
  split at h
  · simp at h
  · next hnul =>
    rw [if_neg hnul]
    split at h
    · simp at h
    · next hne =>
      rw [if_neg hne]
      split at h
      · simp at h
      · next hlong =>
        rw [if_neg hlong]
        exact landFrom_kept hkept _ _ _ h

variable {New : Location → FileNode → Prop}

theorem GrowsBy.kept (hgrow : GrowsBy New before after) (location : Location) (node : FileNode) :
    Kept before after location node :=
  fun _ _ hget _ => hgrow.get?_of_some hget

/-- A path that leads to a node still leads to it when something is added. -/
theorem land_node_of_grows (hgrow : GrowsBy New before after) {path : Text}
    (h : before.land lookup path = .ok (.node location node)) :
    after.land lookup path = .ok (.node location node) :=
  land_kept hgrow.home_eq (hgrow.kept location node) h

end Kept

section Growth

variable {Dir : Location → Prop} {before after : FileSystem} {lookup : Lookup}

/-- How the place a path leads to differs once there are more files: the same place, or the path
met a file where it had found nothing. -/
inductive Met (before after : FileSystem) :
    Except FileError Landing → Except FileError Landing → Prop where
  | nothing (found : Except FileError Landing) : Met before after found found
  | onTheWay : Met before after (.error .notFound) (.error .notADirectory)
  | atTheEnd {dir : Location} {name : Name} {content : Bytes}
      (hbefore : before.get? (name :: dir) = none)
      (hafter : after.get? (name :: dir) = some (.file content)) :
      Met before after (.ok (.free dir name)) (.ok (.node (name :: dir) (.file content)))

theorem landUntilLink_met (hgrow : GrowsBy (FileIn Dir) before after)
    {jump jump' : Location → List Component → Except FileError Landing}
    (hjump : ∀ dir path, Met before after (jump dir path) (jump' dir path))
    (dir : Location) (path : List Component) :
    Met before after (before.landUntilLink lookup jump dir path)
      (after.landUntilLink lookup jump' dir path) := by
  induction path generalizing dir with
  | nil => exact .nothing _
  | cons step rest ih =>
    cases step with
    | here => exact ih dir
    | slash => exact ih dir
    | up => exact ih dir.tail
    | tooLong => exact .nothing _
    | name name =>
      simp only [landUntilLink]
      split
      · exact .nothing _
      · cases hbefore : before.get? (name :: dir) with
        | some node =>
          rw [hgrow.get?_of_some hbefore]
          cases node with
          | directory => exact ih _
          | file content => exact .nothing _
          | link target =>
            simp only
            split
            · exact .nothing _
            · split
              · exact hjump _ _
              · exact hjump _ _
        | none =>
          cases hafter : after.get? (name :: dir) with
          | none => exact .nothing _
          | some node =>
            obtain hold | ⟨-, -, -, content, -, -, rfl⟩ := hgrow.get?_cases hafter
            · rw [hbefore] at hold
              cases hold
            · simp only
              split
              · exact .atTheEnd hbefore hafter
              · exact .onTheWay

theorem landFrom_met (hgrow : GrowsBy (FileIn Dir) before after) (links : Nat) (dir : Location)
    (path : List Component) :
    Met before after (before.landFrom lookup links dir path)
      (after.landFrom lookup links dir path) := by
  induction links generalizing dir path with
  | zero => exact landUntilLink_met hgrow (fun _ _ => .nothing _) dir path
  | succ links ih => exact landUntilLink_met hgrow ih dir path

theorem land_met (hgrow : GrowsBy (FileIn Dir) before after) (path : Text) :
    Met before after (before.land lookup path) (after.land lookup path) := by
  have horigin : after.origin (Path.isAbsolute path) = before.origin (Path.isAbsolute path) := by
    simp only [origin, hgrow.home_eq]
  rw [land_eq, land_eq, horigin]
  split
  · exact .nothing _
  · split
    · exact .nothing _
    · split
      · exact .nothing _
      · exact landFrom_met hgrow _ _ _

/-- A path that leads to a directory when files have been added led to it before. -/
theorem land_directory_iff (hgrow : GrowsBy (FileIn Dir) before after) {path : Text}
    {location : Location} :
    after.land lookup path = .ok (.node location .directory) ↔
      before.land lookup path = .ok (.node location .directory) := by
  refine ⟨fun h => ?_, land_node_of_grows hgrow⟩
  have hmet : Met before after (before.land lookup path) (after.land lookup path) :=
    land_met hgrow path
  rw [h] at hmet
  generalize before.land lookup path = found at hmet
  cases hmet
  rfl

end Growth

end TokenCorpus.FileSystem
