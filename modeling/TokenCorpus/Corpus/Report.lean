import TokenCorpus.Encoding.Config

/-!
Reports: what happened to each visited file.
-/

namespace TokenCorpus

/-- What happened to a file. -/
inductive FileStatus where
  /-- Its document was written. -/
  | written
  /-- Its tokens were counted; there is no document. -/
  | counted
  /-- It has no tree. -/
  | skippedUnparsable
  /-- It has another extension. -/
  | skippedNonMatchingExtension
  deriving DecidableEq, Repr, Inhabited

namespace FileStatus

/-- The name of a status in reports. -/
def name : FileStatus → String
  | written => "written"
  | counted => "counted"
  | skippedUnparsable => "skipped_unparsable"
  | skippedNonMatchingExtension => "skipped_non_matching_extension"

/-- The name of a status in log lines. -/
def title : FileStatus → String
  | written => "Written"
  | counted => "Counted"
  | skippedUnparsable => "SkippedUnparsable"
  | skippedNonMatchingExtension => "SkippedNonMatchingExtension"

end FileStatus

/-- The record of a visited file. -/
structure CorpusFile where
  sequence : Nat
  sourcePath : Text
  status : FileStatus
  outputPath : Option Text
  deriving DecidableEq, Repr, Inhabited

/-- The outcome of a run, in walk order. -/
structure BuildReport where
  encoding : EncodingConfig
  /-- All visited entries, directories included. -/
  entriesVisited : Nat := 0
  written : Nat := 0
  counted : Nat := 0
  skippedUnparsable : Nat := 0
  skippedExtension : Nat := 0
  files : List CorpusFile := []
  deriving DecidableEq, Repr, Inhabited

namespace BuildReport

/-- One more file with the given status. -/
def tally (r : BuildReport) : FileStatus → BuildReport
  | .written => { r with written := r.written + 1 }
  | .counted => { r with counted := r.counted + 1 }
  | .skippedUnparsable => { r with skippedUnparsable := r.skippedUnparsable + 1 }
  | .skippedNonMatchingExtension => { r with skippedExtension := r.skippedExtension + 1 }

/-- Appends the record of a file. -/
def push (r : BuildReport) (file : CorpusFile) : BuildReport :=
  let t := r.tally file.status
  { t with files := t.files ++ [file] }

/-- One more entry, file or directory. -/
def visit (r : BuildReport) : BuildReport := { r with entriesVisited := r.entriesVisited + 1 }

/-- The documents written, in walk order. -/
def documents (r : BuildReport) : List Text := r.files.filterMap CorpusFile.outputPath

end BuildReport

end TokenCorpus
