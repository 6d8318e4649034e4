import TokenCorpus.Sink
import TokenCorpus.Proofs.Encoding.Visiting
import TokenCorpus.Proofs.Text.Bytes
import TokenCorpus.Proofs.Vocabulary.Lines

/-!
Writing where there is not room for everything.

An encoding and a vocabulary file are written in many small pieces. A sink may be full before any of
them, within one or behind the last, and an empty piece finds room even in a full sink. Wherever the
room ends, what the sink has taken is the front of the whole output, and nothing is written behind
the piece that did not fit.
-/

namespace TokenCorpus

namespace Sink

theorem take_append (s : Sink) (first rest : Bytes) :
    s.take (first ++ rest) = (s.take first).take rest := by
  simp only [take, List.take_append, List.append_assoc, List.length_append, Nat.sub_add_eq]

/-- What comes after the write that does not fit makes no difference. -/
theorem take_append_of_full {s : Sink} {first : Bytes} (h : s.room < first.length) (rest : Bytes) :
    s.take (first ++ rest) = s.take first := by
  have hroom : s.room - first.length = 0 := Nat.sub_eq_zero_of_le (Nat.le_of_lt h)
  rw [take_append]
  simp only [take, hroom, List.take_zero, List.append_nil, Nat.zero_sub]

theorem run_put (s : Sink) (t : Text) :
    (put t).run.run s =
      (if s.room < t.bytes.length then .error s.error else .ok (), s.take t.bytes) := by
  have hput : (put t).run.run s =
      (if s.room < t.bytes.length then (throw s.error : SinkM Unit) else pure ()).run.run
        (s.take t.bytes) := rfl
  rw [hput]
  split
  · rfl
  · rfl

/-- Pieces written one after the other leave what the whole output would leave. -/
theorem offer_put (pieces : List Text) (s : Sink) :
    offer put pieces s =
      (if s.room < (Text.bytes pieces.flatten).length then .error s.error else .ok (),
        s.take (Text.bytes pieces.flatten)) := by
  induction pieces generalizing s with
  | nil => simp [offer, take, Text.bytes]
  | cons piece pieces ih =>
    rw [offer, run_put, List.flatten_cons, Text.bytes_append]
    by_cases hfull : s.room < piece.bytes.length
    · have hwhole : s.room < (piece.bytes ++ Text.bytes pieces.flatten).length := by
        rw [List.length_append]
        omega
      rw [if_pos hfull, if_pos hwhole, take_append_of_full hfull]
    · have hroom : (s.take piece.bytes).room = s.room - piece.bytes.length := rfl
      have herror : (s.take piece.bytes).error = s.error := rfl
      have hlength : (piece.bytes ++ Text.bytes pieces.flatten).length =
          piece.bytes.length + (Text.bytes pieces.flatten).length :=
        List.length_append
      simp only [if_neg hfull, ih, take_append, hroom, herror, hlength]
      congr 2
      simp only [eq_iff_iff]
      omega

end Sink

/-- A program has an output, and it hands the pieces of it to a writer in order, none behind one that
is refused. A sink with room for `limit` bytes is left with the first `limit` bytes of the output. If
these are all, the program has come to its end; if not, it has ended with the error of the sink. -/
structure WritesInOrder
    (write : ∀ {σ ε : Type}, (Text → ExceptT ε (StateM σ) Unit) → ExceptT ε (StateM σ) Unit)
    (output : Text) : Prop where
  offers : ∃ pieces : List Text, pieces.flatten = output ∧
    ∀ {σ ε : Type} (put : Text → ExceptT ε (StateM σ) Unit) (state : σ),
      (write put).run.run state = offer put pieces state
  taken_eq : ∀ limit whenFull, ((Sink.empty limit whenFull).fill write).2.taken =
    output.bytes.take (min limit output.bytes.length)
  ok_iff : ∀ limit whenFull,
    ((Sink.empty limit whenFull).fill write).1 = .ok () ↔ output.bytes.length ≤ limit
  error_eq : ∀ limit whenFull, limit < output.bytes.length →
    ((Sink.empty limit whenFull).fill write).1 = .error (match whenFull with
      | .fail => .diskFull
      | .takeNothing => .nothingTaken)

theorem writesInOrder_of_eq_forM {pieces : List Text}
    {write : ∀ {σ ε : Type}, (Text → ExceptT ε (StateM σ) Unit) → ExceptT ε (StateM σ) Unit}
    (h : ∀ {σ ε : Type} (put : Text → ExceptT ε (StateM σ) Unit), write put = forM pieces put) :
    WritesInOrder write pieces.flatten := by
  have hfill : ∀ limit whenFull, (Sink.empty limit whenFull).fill write =
      (if limit < (Text.bytes pieces.flatten).length then .error (Sink.empty limit whenFull).error
        else .ok (), (Sink.empty limit whenFull).take (Text.bytes pieces.flatten)) := by
    intro limit whenFull
    rw [Sink.fill, h, run_forM_eq_offer, Sink.offer_put]
    rfl
  refine ⟨⟨pieces, rfl, fun put state => ?_⟩, fun limit whenFull => ?_, fun limit whenFull => ?_,
    fun limit whenFull hlt => ?_⟩
  · rw [h, run_forM_eq_offer]
  · rw [hfill, ← List.take_take, List.take_length]
    rfl
  · rw [hfill, ← Nat.not_lt]
    split
    · next hlt => simp [hlt]
    · next hle => simp [hle]
  · rw [hfill, if_pos hlt]
    cases whenFull <;> rfl

/-- However an encoding or a vocabulary is cut into pieces, and wherever the room of a sink ends,
the sink is left with the front of the whole, and the program is told if that is not all of it. -/
theorem output_written_in_order :
    (∀ (config : EncodingConfig) (node : Node),
      WritesInOrder (encode config · node) (node.encoding config)) ∧
    ∀ v : Vocabulary, WritesInOrder v.write (transcript v.write) := by
  refine ⟨fun config node => ?_, fun v => ?_⟩
  · rw [Node.encoding_eq_flatten]
    exact writesInOrder_of_eq_forM fun put => encode_eq_forM config put node
  · rw [Vocabulary.transcript_write, Vocabulary.render]
    exact writesInOrder_of_eq_forM fun put => v.write_eq_forM put

/-- A leaf of blanks has no subtokens, and to write none takes no room. -/
example : (Sink.empty 1 .takeNothing).fill
      (encode ((EncodingConfig.tree true).subtokenized true) · (.literal [' '])) =
    (.error .nothingTaken, ⟨Text.bytes ['['], 0, .takeNothing⟩) := by
  decide +kernel

end TokenCorpus
