import TokenCorpus.Encoding
import TokenCorpus.Utf8
import TokenCorpus.Vocabulary
import TokenCorpus.FileSystem.Access
import TokenCorpus.Corpus.Options
import TokenCorpus.Corpus.Event
import TokenCorpus.Corpus.DocumentName

/-!
A run over an input directory.

The entries of the input directory are listed once, at the start; a directory below them is listed
when the walk comes to it. Every entry takes the next sequence number. Files with the right
extension are parsed, and each tree becomes a document or adds to a count.

Documents may appear in directories that are still to be walked, so a run changes the file system
under its own feet. It makes no directories, though. That is why the walk ends: it goes from a
directory only to deeper ones, and there are no more of those than at the start.
-/

namespace TokenCorpus

/-- What turns the source text of the file at a path into a tree. -/
abbrev SourceParser := Text → Text → Except ParseError Node

/-- What becomes of a tree. -/
inductive Job where
  /-- It is written to a document in a directory. -/
  | dump (output : Text)
  /-- Its tokens are counted. -/
  | tally
  deriving DecidableEq, Repr

/-- The status of a file whose tree was accepted. -/
def Job.status : Job → FileStatus
  | dump _ => .written
  | tally => .counted

/-- How a run treats files. -/
structure Miner where
  parser : SourceParser
  options : BuildOptions

/-- A run begun on the file system `base`, at some point of its walk. -/
structure Run (base : FileSystem) where
  fs : FileSystem
  sameDirectories : fs.directories = base.directories
  report : BuildReport
  counts : TokenCounts
  log : List Event

/-- A run that ended before its time, as it was then. -/
structure Failure (base : FileSystem) where
  cause : Abort BuildError
  run : Run base

/-- The effect of a step of a run. -/
abbrev Step (base : FileSystem) := Except (Failure base) (Run base)

namespace Run

variable {base : FileSystem}

/-- A run before its first entry. -/
def start (base : FileSystem) (encoding : EncodingConfig) (log : List Event) : Run base :=
  ⟨base, rfl, { encoding }, .empty, log⟩

/-- The number of the last entry visited. -/
def sequence (run : Run base) : Nat := run.report.entriesVisited

/-- The run with one more entry visited. -/
def visit (run : Run base) : Run base := { run with report := run.report.visit }

/-- The run with one more event in its log. -/
def tell (run : Run base) (event : Event) : Run base := { run with log := run.log ++ [event] }

/-- The run with the record of the entry visited last. -/
def record (run : Run base) (path : Text) (status : FileStatus) (output : Option Text) : Run base :=
  { run with report := run.report.push ⟨run.sequence, path, status, output⟩ }

/-- The run, ended by an error. -/
def fail (run : Run base) (error : BuildError) : Step base := .error ⟨.raised error, run⟩

/-- A directory of the run lies no deeper than the deepest one at its start. -/
theorem length_lt_height (run : Run base) {name : Name} {dir : Location}
    (h : run.fs.get? (name :: dir) = some .directory) : dir.length < base.height := by
  have := FileSystem.length_lt_height h
  rwa [FileSystem.height, run.sameDirectories] at this

/-- Notes that the entry visited last is a directory. -/
def passDirectory (run : Run base) (path : Text) : Run base :=
  run.tell (.directory run.sequence path)

/-- Records that the tree of the entry visited last was accepted. -/
def passAccepted (run : Run base) (path : Text) (status : FileStatus) (output : Option Text) :
    Run base :=
  (run.tell (.accepted run.sequence path status)).record path status output

/-- Writes the document of the entry visited last. -/
def writeDocument (run : Run base) (options : BuildOptions) (output path : Text) (tree : Node) :
    Step base :=
  match documentName run.sequence options.sequenceWidth with
  | .error cause => .error ⟨cause, run⟩
  | .ok name =>
    let document := Path.join output name
    match h : run.fs.createFile document (tree.encoding options.encoding).bytes with
    | .error .alreadyExists => run.fail (.outputCollision run.sequence document)
    | .error e => run.fail (.io .create document e)
    | .ok fs =>
      let run := { run with
        fs
        sameDirectories := (FileSystem.directories_occupy h (by simp)).trans run.sameDirectories }
      .ok (run.passAccepted path .written (some document))

/-- Counts the words of the tokens of a tree. -/
def countTokens (counts : TokenCounts) (encoding : EncodingConfig) (tree : Node) : TokenCounts :=
  ((tree.forTokens encoding fun token => modify (·.addAll token.words) :
    StateM TokenCounts Unit).run counts).2

/-- Deals with the tree of the entry visited last. -/
def accept (run : Run base) (job : Job) (options : BuildOptions) (path : Text) (tree : Node) :
    Step base :=
  match job with
  | .dump output => run.writeDocument options output path tree
  | .tally =>
    let run := { run with counts := countTokens run.counts options.encoding tree }
    .ok (run.passAccepted path .counted none)

/-- Deals with the entry visited last, which is no directory. -/
def file (run : Run base) (miner : Miner) (job : Job) (path : Text) (name : Name) : Step base :=
  if !miner.options.accepts name.text then
    .ok ((run.tell (.otherExtension run.sequence path)).record path .skippedNonMatchingExtension
      none)
  else
    match run.fs.read path with
    | .error e => run.fail (.io .read path e)
    | .ok bytes =>
      match (Utf8.read path bytes).bind (miner.parser path) with
      | .error e =>
        .ok ((run.tell (.unparsable run.sequence path e.detail)).record path .skippedUnparsable
          none)
      | .ok tree => run.accept job miner.options path tree

/-- Walks what a directory holds, in order. A link to a directory counts as one but is not
entered. The directory lies `depth` levels below an entry of the input directory. If its path is too
long for a listing, the walk fails where it asks for the first entry. -/
def walk (miner : Miner) (job : Job) (depth : Nat) (dir : Location) (path : Text) (run : Run base) :
    Step base :=
  if Path.isTooLong path then run.visit.fail (.walk path depth .nameTooLong)
  else
    List.foldlM (fun run name =>
      let run := visit run
      let entry := Path.join path name.text
      match h : run.fs.get? (name :: dir) with
      | some .directory =>
        have : base.height - (name :: dir).length < base.height - dir.length :=
          Nat.sub_succ_lt_self _ _ (length_lt_height run h)
        walk miner job (depth + 1) (name :: dir) entry (run.passDirectory entry)
      | some (.link _) =>
        if run.fs.isDirectory entry then .ok (run.passDirectory entry)
        else run.file miner job entry name
      | _ => run.file miner job entry name) run (run.fs.names dir)
termination_by base.height - dir.length
decreasing_by assumption

/-- Walks an entry of the input directory and all below it. A link here is followed. -/
def project (miner : Miner) (job : Job) (root : Location) (input : Text) (run : Run base)
    (name : Name) : Step base :=
  let run := run.visit
  let entry := Path.join input name.text
  if Path.isTooLong entry then run.fail (.walk entry 0 .nameTooLong)
  else
    match run.fs.get? (name :: root) with
    | some .directory => walk miner job 0 (name :: root) entry (run.passDirectory entry)
    | some (.link _) =>
      match run.fs.place .target entry with
      | .error e => run.fail (.walk entry 0 e)
      | .ok (.free ..) => run.fail (.walk entry 0 .notFound)
      | .ok (.node dir .directory _) => walk miner job 0 dir entry (run.passDirectory entry)
      | .ok (.node ..) => run.file miner job entry name
    | some (.file _) => run.file miner job entry name
    | none => run.fail (.walk entry 0 .notFound)

/-- Runs over all entries of the input directory. -/
def all (run : Run base) (miner : Miner) (job : Job) (input : Text) : Step base :=
  match run.fs.findDirectory input with
  | .error e => run.fail (.io .readDirectory input e)
  | .ok root => List.foldlM (project miner job root input) run (run.fs.names root)

end Run

end TokenCorpus
