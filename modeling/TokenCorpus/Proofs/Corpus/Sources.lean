import TokenCorpus.Proofs.Text.Bytes
import TokenCorpus.Proofs.Text.WellFormed
import TokenCorpus.Proofs.Corpus.Outcomes

/-!
What a run takes from the contents of a script.

Well-formed contents reach the parser as the text whose bytes they are. Other contents never reach
it: they end in an error that shows them as a reader would see them, and points at the replacement
character that stands where they break off.
-/

namespace TokenCorpus

/-- A parse error points at the place where some bytes break off. The text that it shows has the
bytes themselves up to there and goes on with a replacement character, so the place means the same
in both. -/
structure ParseError.Locates (e : ParseError) (bytes : Bytes) : Prop where
  breakOff : Utf8.BreakOffAt bytes e.offset
  source_eq : ∃ before after : Text, e.source = before ++ '\uFFFD' :: after ∧
    before.bytes = bytes.take e.offset
  length_eq : e.length = 1
  inside : e.offset + e.length ≤ e.source.bytes.length

/-- What is ill-formed breaks off behind a text, and there a reader sees a replacement character. -/
theorem ParseError.locates_invalidUtf8 (path : Text) {bytes : Bytes}
    (h : ¬ Utf8.WellFormed bytes) : (invalidUtf8 path bytes).Locates bytes := by
  obtain ⟨t, ht | ⟨lead, rest, n, rfl, hstretch⟩⟩ := Utf8.exists_text bytes
  · exact absurd (Utf8.wellFormed_iff.mpr ⟨t, ht⟩) h
  · have hoffset : (invalidUtf8 path (t.bytes ++ lead :: rest)).offset = t.byteLength := by
      rw [invalidUtf8, plain, Utf8.validLength_append, Utf8.validLength, hstretch]
      exact Nat.zero_add _
    have hsource : (invalidUtf8 path (t.bytes ++ lead :: rest)).source =
        t ++ '\uFFFD' :: Utf8.lossy (rest.drop n) := by
      rw [invalidUtf8, plain, Utf8.lossy_append, Utf8.lossy, hstretch]
      rfl
    have hsize : '\uFFFD'.utf8Size = 3 := rfl
    refine ⟨hoffset ▸ Utf8.breakOffAt_byteLength t hstretch, ⟨t, _, hsource, ?_⟩, rfl, ?_⟩
    · rw [hoffset, List.take_left' t.length_bytes]
    · rw [hoffset, hsource, Text.bytes_append, List.length_append, Text.length_bytes t,
        Text.length_bytes, Text.byteLength, hsize,
        show (invalidUtf8 path (t.bytes ++ lead :: rest)).length = 1 from rfl]
      omega

theorem Utf8.read_bytes (path t : Text) : Utf8.read path t.bytes = .ok t := by
  rw [read, decode?_bytes]

theorem Utf8.read_of_not_wellFormed (path : Text) {bytes : Bytes} (h : ¬ WellFormed bytes) :
    Utf8.read path bytes = .error (.invalidUtf8 path bytes) := by
  rw [wellFormed_iff_isSome, Option.not_isSome_iff_eq_none] at h
  rw [read, h]

/-- The verdict on a script, by what has come of its contents. -/
def Verdict.ofParsed : Except ParseError Node → Verdict
  | .error e => .unparsable e
  | .ok tree => .accepted tree

namespace Miner

/-- Every run that comes to a script at a path, and finds these contents, settles the verdict that
the parsing has led to. -/
def Parses (miner : Miner) (path : Text) (bytes : Bytes) (parsed : Except ParseError Node) : Prop :=
  ∀ ⦃base : FileSystem⦄ (run : Run base) (job : Job) (name : Name),
    miner.options.accepts name.text → run.fs.read path = .ok bytes →
    run.file miner job path name = run.settle miner.options job path (.ofParsed parsed)

theorem parses_bind (miner : Miner) (path : Text) (bytes : Bytes) :
    miner.Parses path bytes ((Utf8.read path bytes).bind (miner.parser path)) := by
  intro base run job name haccepts hread
  have hjudge : miner.judgeFile run.fs path name =
      .ok (.ofParsed ((Utf8.read path bytes).bind (miner.parser path))) := by
    simp only [judgeFile, haccepts, hread, Bool.not_true, Bool.false_eq_true, ↓reduceIte]
    cases (Utf8.read path bytes).bind (miner.parser path) <;> rfl
  rw [Run.file_eq, hjudge]

/-- Ill-formed contents end in an error that locates where they break off, whatever the parser;
others are handed to the parser as the text whose bytes they are. -/
theorem contents_located_or_parsed (path : Text) (bytes : Bytes) :
    (¬ Utf8.WellFormed bytes →
      (ParseError.invalidUtf8 path bytes).Locates bytes ∧
      Utf8.read path bytes = .error (.invalidUtf8 path bytes) ∧
      ∀ miner : Miner, miner.Parses path bytes (.error (.invalidUtf8 path bytes))) ∧
    (Utf8.WellFormed bytes → ∃ source : Text, source.bytes = bytes ∧
      Utf8.read path bytes = .ok source ∧
      ∀ miner : Miner, miner.Parses path bytes (miner.parser path source)) := by
  constructor
  · intro h
    have hread := Utf8.read_of_not_wellFormed path h
    refine ⟨ParseError.locates_invalidUtf8 path h, hread, fun miner => ?_⟩
    have hparses := miner.parses_bind path bytes
    rwa [hread] at hparses
  · intro h
    obtain ⟨source, rfl⟩ := Utf8.wellFormed_iff.mp h
    have hread := Utf8.read_bytes path source
    refine ⟨source, rfl, hread, fun miner => ?_⟩
    have hparses := miner.parses_bind path source.bytes
    rwa [hread] at hparses

/-- Contents whose last character is cut off behind its second byte. -/
def tornBytes : Bytes := Text.bytes "(é ".toList ++ [0xE2, 0x82]

/-- A project with a script whose end is torn off and one that is whole. -/
def tornProject : FileSystem :=
  projectOf [(firstScript, .file tornBytes), (secondScript, .file (Text.bytes "(é)".toList))]
    (by decide)

/-- The torn script is refused, and the whole one is parsed. -/
theorem contents_located_or_parsed_tornProject :
    ¬ Utf8.WellFormed tornBytes ∧ Utf8.WellFormed (Text.bytes "(é)".toList) ∧
    (ParseError.invalidUtf8 "in/p/a.sutra".toList tornBytes).Locates tornBytes ∧
    (Run.start tornProject {} []).file (ofScripts {}) .tally "in/p/a.sutra".toList firstScript =
      (Run.start tornProject {} []).settle {} .tally "in/p/a.sutra".toList
        (.unparsable (.invalidUtf8 "in/p/a.sutra".toList tornBytes)) ∧
    ∃ source : Text, source.bytes = Text.bytes "(é)".toList ∧
      (Run.start tornProject {} []).file (ofScripts {}) .tally "in/p/b.sutra".toList secondScript =
        (Run.start tornProject {} []).settle {} .tally "in/p/b.sutra".toList
          (.ofParsed (Script.parse "in/p/b.sutra".toList source)) := by
  have htorn : ¬ Utf8.WellFormed tornBytes := by decide +kernel
  have hwhole : Utf8.WellFormed (Text.bytes "(é)".toList) := by decide +kernel
  obtain ⟨hlocates, -, hrefused⟩ :=
    (contents_located_or_parsed "in/p/a.sutra".toList tornBytes).1 htorn
  obtain ⟨source, hbytes, -, hparsed⟩ :=
    (contents_located_or_parsed "in/p/b.sutra".toList (Text.bytes "(é)".toList)).2 hwhole
  refine ⟨htorn, hwhole, hlocates, ?_, source, hbytes, ?_⟩
  · exact hrefused (ofScripts {}) _ _ firstScript (by decide) (by decide +kernel)
  · exact hparsed (ofScripts {}) _ _ secondScript (by decide) (by decide +kernel)

end Miner

end TokenCorpus
