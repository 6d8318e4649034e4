import TokenCorpus.FileSystem.Path
import TokenCorpus.FileSystem.Error

/-!
Resolving paths.

A path is followed step by step from a directory. A symbolic link on the way is replaced by its
target; one at the end is replaced only if the request follows it. So many links are replaced at
most that a loop of links comes to an end. A file that is to be made cannot have a name with a slash
behind it, in the path or in the target of a link at its end.
-/

namespace TokenCorpus.FileSystem

/-- Where a path leads: to a node, or to a name that its directory leaves free. -/
inductive Place (fs : FileSystem) where
  | node (location : Location) (node : FileNode) (isThere : fs.get? location = some node)
  | free (dir : Location) (name : Name) (isDirectory : fs.get? dir = some .directory)
      (isFree : fs.get? (name :: dir) = none)

/-- What a path is looked up for. -/
inductive Lookup where
  /-- The entry itself: a link at the end is not followed. -/
  | entry
  /-- What it leads to: a link at the end is followed. -/
  | target
  /-- A file to be made where it leads to, or to be given new contents. -/
  | file
  deriving DecidableEq, Repr, Inhabited

/-- Whether a lookup refuses a name because of the steps after it. -/
def Lookup.refuses (lookup : Lookup) (rest : List Component) : Bool :=
  lookup = .file && rest = [.slash]

/-- The number of links that a path may pass. -/
def maxLinks : Nat := 40

/-- The directory that holds a directory; the root holds itself. -/
theorem get?_tail (fs : FileSystem) {dir : Location} (h : fs.get? dir = some .directory) :
    fs.get? dir.tail = some .directory := by
  cases dir with
  | nil => simp
  | cons name dir => exact fs.get?_parent h

/-- The directory in which paths start. -/
def origin (fs : FileSystem) (absolute : Bool) : Location := if absolute then [] else fs.home

theorem get?_origin (fs : FileSystem) (absolute : Bool) :
    fs.get? (fs.origin absolute) = some .directory := by
  cases absolute
  · exact fs.get?_home
  · exact fs.get?_root

/-- Follows steps from a directory up to the next link that has to be replaced, and goes on with
`jump` from there. -/
def followUntilLink (fs : FileSystem) (lookup : Lookup)
    (jump : (dir : Location) → fs.get? dir = some .directory → List Component →
      Except FileError (Place fs))
    (dir : Location) (hdir : fs.get? dir = some .directory) :
    List Component → Except FileError (Place fs)
  | [] => .ok (.node dir .directory hdir)
  | .here :: rest => followUntilLink fs lookup jump dir hdir rest
  | .slash :: rest => followUntilLink fs lookup jump dir hdir rest
  | .up :: rest => followUntilLink fs lookup jump dir.tail (fs.get?_tail hdir) rest
  | .tooLong :: rest => .error (if lookup.refuses rest then .isADirectory else .nameTooLong)
  | .name name :: rest =>
    if lookup.refuses rest then .error .isADirectory
    else
      match h : fs.get? (name :: dir) with
      | none => if rest = [] then .ok (.free dir name hdir h) else .error .notFound
      | some .directory => followUntilLink fs lookup jump (name :: dir) h rest
      | some (.file content) =>
        if rest = [] then .ok (.node (name :: dir) (.file content) h) else .error .notADirectory
      | some (.link target) =>
        if rest = [] ∧ lookup = .entry then .ok (.node (name :: dir) (.link target) h)
        else if Path.isAbsolute target then jump [] fs.get?_root (Path.steps target ++ rest)
        else jump dir hdir (Path.steps target ++ rest)

/-- Follows steps from a directory, replacing at most `links` links. -/
def follow (fs : FileSystem) (lookup : Lookup) (links : Nat) (dir : Location)
    (hdir : fs.get? dir = some .directory) (path : List Component) :
    Except FileError (Place fs) :=
  match links with
  | 0 => followUntilLink fs lookup (fun _ _ _ => .error .linkLoop) dir hdir path
  | links + 1 => followUntilLink fs lookup (follow fs lookup links) dir hdir path

/-- Where steps lead from the directory in which paths start. -/
def placeOf (fs : FileSystem) (lookup : Lookup) (absolute : Bool) (path : List Component) :
    Except FileError (Place fs) :=
  follow fs lookup maxLinks (fs.origin absolute) (fs.get?_origin absolute) path

/-- Where a path leads. The empty path leads nowhere. -/
def place (fs : FileSystem) (lookup : Lookup) (path : Text) : Except FileError (Place fs) :=
  if Path.holdsNul path then .error .nulInPath
  else if path = [] then .error .notFound
  else if Path.isTooLong path then .error .nameTooLong
  else fs.placeOf lookup (Path.isAbsolute path) (Path.steps path)

end TokenCorpus.FileSystem
