import TokenCorpus.Text

/-!
Why the file system refuses a request.
-/

namespace TokenCorpus

/-- The refusals of a file system. -/
inductive FileError where
  | notFound
  | alreadyExists
  | notADirectory
  | isADirectory
  | nameTooLong
  | linkLoop
  | nulInPath
  deriving DecidableEq, Repr, Inhabited

namespace FileError

/-- The kind of a refusal. -/
def kind : FileError → String
  | notFound => "NotFound"
  | alreadyExists => "AlreadyExists"
  | notADirectory => "NotADirectory"
  | isADirectory => "IsADirectory"
  | nameTooLong => "InvalidFilename"
  | linkLoop => "FilesystemLoop"
  | nulInPath => "InvalidInput"

/-- The wording of a refusal. -/
def message : FileError → String
  | notFound => "No such file or directory (os error 2)"
  | alreadyExists => "File exists (os error 17)"
  | notADirectory => "Not a directory (os error 20)"
  | isADirectory => "Is a directory (os error 21)"
  | nameTooLong => "File name too long (os error 36)"
  | linkLoop => "Too many levels of symbolic links (os error 40)"
  | nulInPath => "file name contained an unexpected NUL byte"

end FileError

end TokenCorpus
