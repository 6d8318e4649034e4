import TokenCorpus.Corpus.Report
import TokenCorpus.Vocabulary

/-!
Summaries: what a command says when its work is done.
-/

namespace TokenCorpus

/-- What a stretch of a summary stands out for. -/
inductive Emphasis where
  | success
  | warning
  deriving DecidableEq, Repr, Inhabited

/-- The code that makes a terminal show an emphasis: success is green and bold, a warning yellow. -/
def Emphasis.code : Emphasis → Text
  | success => "\x1b[0m\x1b[1m\x1b[32m".toList
  | warning => "\x1b[0m\x1b[33m".toList

/-- The code that ends an emphasis. -/
def plainCode : Text := "\x1b[0m".toList

/-- A stretch of a summary, in the pieces in which it is put on the console. -/
structure Stretch where
  emphasis : Option Emphasis := none
  pieces : List Text
  deriving DecidableEq, Repr, Inhabited

namespace Stretch

/-- A stretch without emphasis. -/
def plain (pieces : List Text) : Stretch := { pieces }

/-- The pieces of a stretch, with codes around them if the terminal has colours. -/
def render (coloured : Bool) (s : Stretch) : List Text :=
  match s.emphasis with
  | some emphasis => if coloured then emphasis.code :: s.pieces ++ [plainCode] else s.pieces
  | none => s.pieces

end Stretch

/-- The end of a line. -/
def lineEnd : Text := ['\n']

/-- What a command wrote, and where to. -/
def wroteLine (count : Nat) (things path : Text) : List Stretch :=
  [⟨some .success, ["✓ Wrote ".toList, Text.ofNat count, ' ' :: things]⟩,
    .plain [" to ".toList, path, lineEnd]]

namespace BuildReport

/-- The lines on what was left out, and on the whole. -/
def skippedLines (r : BuildReport) : List Stretch :=
  (if 0 < r.skippedUnparsable then
    [⟨some .warning,
      ["  Skipped (unparsable): ".toList, Text.ofNat r.skippedUnparsable, lineEnd]⟩]
  else []) ++
  [.plain ["  Skipped (other files): ".toList, Text.ofNat r.skippedExtension, lineEnd],
    .plain ["  Entries visited:       ".toList, Text.ofNat r.entriesVisited, lineEnd]]

/-- The summary of a dump. -/
def dumpSummary (r : BuildReport) (output : Text) : List Stretch :=
  wroteLine r.written "documents".toList output ++ r.skippedLines

/-- The summary of a vocabulary. -/
def vocabularySummary (r : BuildReport) (vocabulary : Vocabulary) (counts : TokenCounts)
    (output : Text) : List Stretch :=
  wroteLine vocabulary.entries.length "tokens".toList output ++
    [.plain ["  Distinct tokens:       ".toList, Text.ofNat counts.distinct, " (".toList,
      Text.ofNat counts.total, " occurrences in ".toList, Text.ofNat r.counted,
      " files)".toList, lineEnd]] ++
    r.skippedLines

end BuildReport

end TokenCorpus
