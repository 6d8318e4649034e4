import TokenCorpus.Text
import TokenCorpus.Sorting
import TokenCorpus.Tree
import TokenCorpus.Diagnostic
import TokenCorpus.Script.Lexeme
import TokenCorpus.Script.Attempts
import TokenCorpus.Script.Parser
import TokenCorpus.Text.Blank
import TokenCorpus.Subtoken
import TokenCorpus.Encoding.Config
import TokenCorpus.Tokens
import TokenCorpus.Encoding
import TokenCorpus.Sink
import TokenCorpus.Utf8
import TokenCorpus.Vocabulary
import TokenCorpus.Corpus.DocumentName
import TokenCorpus.Corpus.Options
import TokenCorpus.Corpus.Report
import TokenCorpus.Json
import TokenCorpus.Json.Scan
import TokenCorpus.Encoding.ConfigJson
import TokenCorpus.Corpus.Manifest
import TokenCorpus.FileSystem
import TokenCorpus.FileSystem.Error
import TokenCorpus.FileSystem.Path
import TokenCorpus.FileSystem.Resolve
import TokenCorpus.FileSystem.Access
import TokenCorpus.Corpus.Event
import TokenCorpus.Corpus.BuildError
import TokenCorpus.Corpus.Run
import TokenCorpus.Corpus.Build
import TokenCorpus.Console
import TokenCorpus.CommandLine.Command
import TokenCorpus.CommandLine.Setting
import TokenCorpus.CommandLine.Arguments
import TokenCorpus.CommandLine.Summary
import TokenCorpus.CommandLine.Perform
import TokenCorpus.CommandLine.Program
import TokenCorpus.Main
import TokenCorpus.Proofs.Text.Bytes
import TokenCorpus.Proofs.Script.Language
import TokenCorpus.Proofs.Script.Words
import TokenCorpus.Proofs.Script.Reading
import TokenCorpus.Proofs.Script.Trivia
import TokenCorpus.Proofs.Script.Acceptance
import TokenCorpus.Proofs.Encoding.Pieces
import TokenCorpus.Proofs.Encoding.Decoding
import TokenCorpus.Proofs.Script.Rereading
import TokenCorpus.Proofs.Script.FlatDocuments
import TokenCorpus.Proofs.FileSystem.Growth
import TokenCorpus.Proofs.FileSystem.Following
import TokenCorpus.Proofs.FileSystem.Requests
import TokenCorpus.Proofs.FileSystem.Joining
import TokenCorpus.Proofs.FileSystem.Directories
import TokenCorpus.Proofs.Corpus.DocumentName
import TokenCorpus.Proofs.Corpus.Steps
import TokenCorpus.Proofs.Corpus.Itinerary
import TokenCorpus.Proofs.Corpus.Agenda
import TokenCorpus.Proofs.Corpus.Ledger
import TokenCorpus.Proofs.Corpus.Log
import TokenCorpus.Proofs.Corpus.Documents
import TokenCorpus.Proofs.Text.Words
import TokenCorpus.Proofs.Text.Subtokens
import TokenCorpus.Proofs.Vocabulary.Counts
import TokenCorpus.Proofs.Vocabulary.Canonical
import TokenCorpus.Proofs.Vocabulary.Lines
import TokenCorpus.Proofs.Corpus.Counting
import TokenCorpus.Proofs.Corpus.Outcomes
import TokenCorpus.Proofs.Corpus.Preservation
import TokenCorpus.Proofs.Corpus.Trails
import TokenCorpus.Proofs.FileSystem.Shape
import TokenCorpus.Proofs.Corpus.Numbering
import TokenCorpus.Proofs.Encoding.Subtokenized
import TokenCorpus.Proofs.Encoding.Visiting
import TokenCorpus.Proofs.Encoding.SharedWords
import TokenCorpus.Proofs.Script.Furthest
import TokenCorpus.Proofs.Script.Refusal
import TokenCorpus.Proofs.Script.Concatenation
import TokenCorpus.Proofs.Corpus.Collisions
import TokenCorpus.Proofs.Encoding.Suppression
import TokenCorpus.Proofs.Encoding.Balance
import TokenCorpus.Proofs.Corpus.Mirroring
import TokenCorpus.Proofs.Corpus.UnseenLiterals
import TokenCorpus.Proofs.Corpus.Tallies
import TokenCorpus.Proofs.FileSystem.Compatible
import TokenCorpus.Proofs.Corpus.Rebuilding
import TokenCorpus.Proofs.Text.Cuts
import TokenCorpus.Proofs.FileSystem.Writing
import TokenCorpus.Proofs.CommandLine.Performing
import TokenCorpus.Proofs.CommandLine.Vocabulary
import TokenCorpus.Proofs.Corpus.Manifest
import TokenCorpus.Proofs.Corpus.Delivery
import TokenCorpus.Proofs.CommandLine.Dumping
import TokenCorpus.Proofs.Text.Utf8
import TokenCorpus.Proofs.CommandLine.Showing
import TokenCorpus.Proofs.Encoding.LimitedRoom
import TokenCorpus.Proofs.Vocabulary.Thresholds
import TokenCorpus.Proofs.Corpus.Bookkeeping
import TokenCorpus.Proofs.Script.Standing
import TokenCorpus.Proofs.Script.Expectation
import TokenCorpus.Proofs.Encoding.StableSubtokens
import TokenCorpus.Proofs.Script.Unfinished
import TokenCorpus.Proofs.Corpus.Turns
import TokenCorpus.Proofs.Corpus.Termination
import TokenCorpus.Proofs.Text.WellFormed
import TokenCorpus.Proofs.Corpus.Sources
