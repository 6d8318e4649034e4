import TokenCorpus.FileSystem

/-!
Paths: texts that lead to a location.

A path is a row of components between slashes. It starts in the root directory if it begins with a
slash, and at home otherwise.
-/

namespace TokenCorpus

/-- A step of a path. -/
inductive Component where
  /-- Stay in this directory. -/
  | here
  /-- Go to the directory that holds this one. -/
  | up
  /-- Go to an entry of this directory. -/
  | name (name : Name)
  /-- Go to an entry whose name no entry can have. -/
  | tooLong
  /-- Stay, at the end of a path that ends in a slash: it can only mean a directory. -/
  | slash
  deriving DecidableEq, Repr

namespace Path

/-- The pieces of a text between separators, empty ones included. -/
def pieces (separator : Char) : Text → List Text
  | [] => [[]]
  | c :: r =>
    if c = separator then [] :: pieces separator r
    else
      match pieces separator r with
      | [] => [[c]]
      | piece :: rest => (c :: piece) :: rest

/-- The step that a piece of a path stands for. An empty piece is no step. -/
def component? (piece : Text) : Option Component :=
  if piece = [] then none
  else if piece = ['.'] then some .here
  else if piece = ['.', '.'] then some .up
  else if h : Name.Valid piece then some (.name ⟨piece, h⟩)
  else some .tooLong

/-- The steps of a path. -/
def components (path : Text) : List Component := (pieces '/' path).filterMap component?

/-- Whether a path starts in the root directory. -/
def isAbsolute (path : Text) : Bool := path.head? = some '/'

/-- Whether a path can only mean a directory. -/
def endsInSlash (path : Text) : Bool := path.getLast? = some '/'

/-- The steps of a path, the slash at its end included. -/
def steps (path : Text) : List Component :=
  components path ++ if endsInSlash path then [.slash] else []

/-- The greatest number of bytes in a path. -/
def maxLength : Nat := 4095

/-- Whether a path has more bytes than any request admits. -/
def isTooLong (path : Text) : Bool := maxLength < path.byteLength

/-- Whether a path holds a NUL, with which no request can pass it on. -/
def holdsNul (path : Text) : Bool := path.contains '\x00'

/-- The path of an entry of a directory. -/
def join (dir name : Text) : Text :=
  if dir = [] ∨ endsInSlash dir then dir ++ name else dir ++ '/' :: name

end Path

end TokenCorpus
