import TokenCorpus.Diagnostic

/-!
Reading UTF-8.

Bytes are read one character at a time. The lead byte says which ranges the bytes after it must lie
in; where they do not, the lead byte and those that fit form one ill-formed stretch. A decoder
refuses such a stretch, a lossy reader shows one replacement character for it.
-/

namespace TokenCorpus

namespace Utf8

/-- A range of bytes, ends included. -/
structure ByteRange where
  first : UInt8
  last : UInt8

/-- Whether a byte lies in a range. -/
def ByteRange.holds (range : ByteRange) (b : UInt8) : Bool := range.first ≤ b && b ≤ range.last

/-- Any continuation byte. -/
def continuation : ByteRange := ⟨0x80, 0xBF⟩

/-- The ranges of the bytes after a lead byte; `none` for a byte that leads no character. The first
range is narrow where a wider one would admit overlong forms, surrogates or values past the last
character. -/
def tail? (lead : UInt8) : Option (List ByteRange) :=
  if lead < 0x80 then some []
  else if lead < 0xC2 then none
  else if lead < 0xE0 then some [continuation]
  else if lead = 0xE0 then some [⟨0xA0, 0xBF⟩, continuation]
  else if lead = 0xED then some [⟨0x80, 0x9F⟩, continuation]
  else if lead < 0xF0 then some [continuation, continuation]
  else if lead = 0xF0 then some [⟨0x90, 0xBF⟩, continuation, continuation]
  else if lead < 0xF4 then some [continuation, continuation, continuation]
  else if lead = 0xF4 then some [⟨0x80, 0x8F⟩, continuation, continuation]
  else none

/-- How many bytes at the front lie in the ranges, one after the other. -/
def fitting : List ByteRange → Bytes → Nat
  | range :: ranges, b :: bytes => if range.holds b then fitting ranges bytes + 1 else 0
  | _, _ => 0

/-- The bits of the value that a lead byte carries, given how many bytes follow it. -/
def leadBits (lead : UInt8) (following : Nat) : Nat :=
  match following with
  | 0 => lead.toNat
  | 1 => lead.toNat % 32
  | 2 => lead.toNat % 16
  | _ => lead.toNat % 8

/-- The character with the given lead byte and continuation bytes. -/
def character (lead : UInt8) (following : Bytes) : Char :=
  Char.ofNat (following.foldl (fun n b => 64 * n + b.toNat % 64) (leadBits lead following.length))

/-- The front of some bytes: a character, or `none` for an ill-formed stretch, and its length past
the lead byte. -/
def front (lead : UInt8) (bytes : Bytes) : Option Char × Nat :=
  match tail? lead with
  | none => (none, 0)
  | some ranges =>
    let n := fitting ranges bytes
    if n = ranges.length then (some (character lead (bytes.take n)), n) else (none, n)

/-- The text with the given UTF-8 form. -/
def decode? (bytes : Bytes) : Option Text :=
  match bytes with
  | [] => some []
  | lead :: rest =>
    match front lead rest with
    | (none, _) => none
    | (some c, n) => (decode? (rest.drop n)).map (c :: ·)
termination_by bytes.length
decreasing_by simp only [List.length_cons, List.length_drop]; omega

/-- The length of the longest front part that is well-formed. -/
def validLength (bytes : Bytes) : Nat :=
  match bytes with
  | [] => 0
  | lead :: rest =>
    match front lead rest with
    | (none, _) => 0
    | (some _, n) => validLength (rest.drop n) + (n + 1)
termination_by bytes.length
decreasing_by simp only [List.length_cons, List.length_drop]; omega

/-- What a reader sees: the characters, with one replacement character for each ill-formed
stretch. -/
def lossy (bytes : Bytes) : Text :=
  match bytes with
  | [] => []
  | lead :: rest =>
    let (c, n) := front lead rest
    c.getD '\uFFFD' :: lossy (rest.drop n)
termination_by bytes.length
decreasing_by simp only [List.length_cons, List.length_drop]; omega

end Utf8

/-- The error for a file that is no text. It points at the first ill-formed byte. -/
def ParseError.invalidUtf8 (path : Text) (bytes : Bytes) : ParseError :=
  .plain path (Utf8.lossy bytes) "file is not valid UTF-8".toList (Utf8.validLength bytes) 1

/-- The text of a file, or why it has none. -/
def Utf8.read (path : Text) (bytes : Bytes) : Except ParseError Text :=
  match Utf8.decode? bytes with
  | some t => .ok t
  | none => .error (.invalidUtf8 path bytes)

end TokenCorpus
