import TokenCorpus.FileSystem.Resolve

/-!
What programs ask of a file system.

A request is refused because of what is on its path and for no other reason. One that is granted is
done in one step: a file is made or refilled together with its contents, and reading it gives all of
them. So there is no file that is there but half written, and no write or flush that fails.
-/

namespace TokenCorpus.FileSystem

/-- The node that a path leads to, links followed. -/
def find (fs : FileSystem) (path : Text) : Except FileError FileNode := do
  match ← fs.place .target path with
  | .node _ node _ => return node
  | .free .. => throw .notFound

/-- Whether a path leads to something. -/
def leadsSomewhere (fs : FileSystem) (path : Text) : Bool := fs.find path matches .ok _

/-- Whether a path leads to a directory. -/
def isDirectory (fs : FileSystem) (path : Text) : Bool := fs.find path matches .ok .directory

/-- The location of the directory that a path leads to. -/
def findDirectory (fs : FileSystem) (path : Text) : Except FileError Location := do
  match ← fs.place .target path with
  | .node location .directory _ => return location
  | .node .. => throw .notADirectory
  | .free .. => throw .notFound

/-- The contents of the file that a path leads to. -/
def read (fs : FileSystem) (path : Text) : Except FileError Bytes := do
  match ← fs.find path with
  | .file content => return content
  | .link _ => throw .linkLoop
  | .directory => throw .isADirectory

/-- Puts a node at a place, if it is free. -/
def occupy (fs : FileSystem) (place : Except FileError (Place fs)) (node : FileNode) :
    Except FileError FileSystem := do
  match ← place with
  | .node .. => throw .alreadyExists
  | .free dir name isDirectory isFree => return fs.insert dir name isDirectory isFree node

/-- Makes a file that was not there. A link is not followed. -/
def createFile (fs : FileSystem) (path : Text) (content : Bytes) : Except FileError FileSystem :=
  fs.occupy (fs.place .entry path) (.file content)

/-- Makes one directory. -/
def createDirectory (fs : FileSystem) (absolute : Bool) (path : List Component) :
    Except FileError FileSystem :=
  fs.occupy (fs.placeOf .entry absolute path) .directory

/-- Makes the directory that some steps lead to, given in reverse, and those above it that are
missing. Steps that lead to a directory already are no error. Directories made before an error
stay. -/
def createDirectoriesBelow (fs : FileSystem) (absolute : Bool) (reversed : List Component) :
    FileSystem × Option FileError :=
  let isThere (fs : FileSystem) : Bool :=
    fs.placeOf .target absolute reversed.reverse matches .ok (.node _ .directory _)
  let settle (fs : FileSystem) : FileSystem × Option FileError :=
    match fs.createDirectory absolute reversed.reverse with
    | .ok made => (made, none)
    | .error e => (fs, if isThere fs then none else some e)
  match fs.createDirectory absolute reversed.reverse with
  | .error .notFound =>
    match h : reversed.dropWhile (· = .here) with
    | [] => (fs, some .notFound)
    | _ :: above =>
      have shorter : (above.dropWhile (· = .here)).length < reversed.length := by
        have hdrop := (List.dropWhile_suffix (l := reversed) (· = .here)).length_le
        have hrest := (List.dropWhile_suffix (l := above) (· = .here)).length_le
        rw [h, List.length_cons] at hdrop
        omega
      if above.dropWhile (· = .here) = [] then settle fs
      else
        match createDirectoriesBelow fs absolute (above.dropWhile (· = .here)) with
        | (made, none) => settle made
        | (made, some e) => (made, some e)
  | _ => settle fs
termination_by reversed.length
decreasing_by exact shorter

/-- Makes a directory and those above it that are missing. The empty path asks for nothing, and a
slash at the end of a path means nothing. -/
def createDirectories (fs : FileSystem) (path : Text) : FileSystem × Option FileError :=
  if path = [] then (fs, none)
  else if Path.holdsNul path then (fs, some .nulInPath)
  else if Path.isTooLong path then (fs, some .nameTooLong)
  else fs.createDirectoriesBelow (Path.isAbsolute path) (Path.components path).reverse

/-- Gives a file new contents, and makes it if it is missing. -/
def write (fs : FileSystem) (path : Text) (content : Bytes) : Except FileError FileSystem := do
  match ← fs.place .file path with
  | .free dir name isDirectory isFree => return fs.insert dir name isDirectory isFree (.file content)
  | .node location (.file _) _ => return fs.refill location content
  | .node _ (.link _) _ => throw .linkLoop
  | .node _ .directory _ => throw .isADirectory

/-- Takes away the node that a path leads to, and all below it. -/
def remove (fs : FileSystem) (path : Text) : Except FileError FileSystem := do
  match ← fs.place .entry path with
  | .node location _ _ => return fs.erase location
  | .free .. => throw .notFound

/-- Puts a node at a path, with the directories above it. A file replaces the contents of one that
is there. -/
def install (fs : FileSystem) (path : Text) (node : FileNode) : Except FileError FileSystem :=
  let above := (Path.components path).reverse.tail
  let (fs, failure) :=
    if above = [] then (fs, none) else fs.createDirectoriesBelow (Path.isAbsolute path) above
  match failure, node with
  | some e, _ => .error e
  | none, .file content => fs.write path content
  | none, .link target => fs.occupy (fs.place .entry path) (.link target)
  | none, .directory =>
    match fs.createDirectories path with
    | (fs, none) => .ok fs
    | (_, some e) => .error e

/-- Makes the directory that a path leads to the one in which paths start. -/
def goTo (fs : FileSystem) (path : Text) : Except FileError FileSystem := do
  match ← fs.place .target path with
  | .node location .directory isThere => return fs.enter location isThere
  | .node .. => throw .notADirectory
  | .free .. => throw .notFound

theorem directories_occupy {fs made : FileSystem} {place : Except FileError (Place fs)}
    {node : FileNode} (h : fs.occupy place node = .ok made) (hnode : node ≠ .directory) :
    made.directories = fs.directories := by
  unfold occupy at h
  cases place with
  | error e => simp [bind, Except.bind] at h
  | ok place =>
    cases place with
    | node => simp [bind, Except.bind, throw, throwThe, MonadExceptOf.throw] at h
    | free dir name isDirectory isFree =>
      simp only [bind, Except.bind, pure, Except.pure, Except.ok.injEq] at h
      rw [← h]
      exact fs.directories_insert isDirectory isFree hnode

/-- A directory lies no deeper than the deepest one. -/
theorem length_lt_height {fs : FileSystem} {name : Name} {dir : Location}
    (h : fs.get? (name :: dir) = some .directory) : dir.length < fs.height :=
  fs.length_le_height ((fs.mem_directories (List.cons_ne_nil _ _)).mpr h)

/-- All nodes below a directory with their paths, each directory before what it holds and its
entries in order. Links are shown, not followed. -/
def listing (fs : FileSystem) (dir : Location) (path : Text) : List (Text × FileNode) :=
  (fs.names dir).flatMap fun name =>
    let entry := Path.join path name.text
    match h : fs.get? (name :: dir) with
    | none => []
    | some .directory =>
      have : fs.height - (name :: dir).length < fs.height - dir.length :=
        Nat.sub_succ_lt_self _ _ (length_lt_height h)
      (entry, .directory) :: listing fs (name :: dir) entry
    | some node => [(entry, node)]
termination_by fs.height - dir.length
decreasing_by assumption

/-- The listing of the directory that a path leads to. The entries of `.` are shown without its
path; what is no directory shows nothing. -/
def list (fs : FileSystem) (path : Text) : List (Text × FileNode) :=
  match fs.findDirectory path with
  | .error _ => []
  | .ok dir => fs.listing dir (if path = ['.'] then [] else path)

end TokenCorpus.FileSystem
