import TokenCorpus.Corpus.BuildError

/-!
The names of documents.

A document is named for its sequence number, in a fixed number of digits, so that names sort as the
numbers do.
-/

namespace TokenCorpus

/-- The greatest width to which a number can be padded. -/
def maxSequenceWidth : Nat := 65535

/-- Whether `sequence` is less than ten to the power `width`. The digits are counted, so that a
large width costs nothing. -/
def fitsWidth (sequence width : Nat) : Bool :=
  sequence == 0 || (Text.ofNat sequence).length ≤ width

/-- A number with zeros before it, at least `width` characters in all. -/
def zeroPadded (sequence width : Nat) : Text :=
  let digits := Text.ofNat sequence
  List.replicate (width - digits.length) '0' ++ digits

/-- The name of the document with the given sequence number. A number with too many digits is an
error; padding one to too great a width is a panic. -/
def documentName (sequence width : Nat) : Except (Abort BuildError) Text :=
  if !fitsWidth sequence width then .error (.raised (.sequenceOverflow sequence width))
  else if maxSequenceWidth < width then .error .panic
  else .ok (zeroPadded sequence width ++ ".txt".toList)

end TokenCorpus
