import TokenCorpus.Corpus.Report
import TokenCorpus.Encoding.ConfigJson

/-!
Manifests: reports as JSON.
-/

namespace TokenCorpus

/-- The record of a file as a JSON value. -/
def CorpusFile.toJson (file : CorpusFile) : Json :=
  .object [("sequence".toList, .number file.sequence),
    ("source_path".toList, .string file.sourcePath),
    ("status".toList, .string file.status.name.toList),
    ("output_path".toList, (file.outputPath.map Json.string).getD .null)]

namespace BuildReport

/-- A report as a JSON value. -/
def toJson (r : BuildReport) : Json :=
  .object [("encoding".toList, r.encoding.toJson),
    ("entries_visited".toList, .number r.entriesVisited),
    ("written".toList, .number r.written),
    ("counted".toList, .number r.counted),
    ("skipped_unparsable".toList, .number r.skippedUnparsable),
    ("skipped_extension".toList, .number r.skippedExtension),
    ("files".toList, .array (r.files.map CorpusFile.toJson))]

/-- The text of a manifest. -/
def manifest (r : BuildReport) : Text := r.toJson.pretty 0

end BuildReport

end TokenCorpus
