import TokenCorpus.Json

/-!
Reading JSON text from the front.

Each reader takes a value off the front of a text and returns the rest, or refuses. A value that
nobody asks for is passed over: its form is checked, but its strings may hold escapes that stand
for no character.
-/

namespace TokenCorpus.Json

/-- The characters that may stand between the parts of a value. -/
def isBlank (c : Char) : Bool := c ∈ [' ', '\t', '\r', '\n']

/-- The text after the blanks at its front. -/
def skipBlank (s : Text) : Text := s.dropWhile isBlank

/-- The text after a fixed word. -/
def skipWord? (word s : Text) : Option Text :=
  if word.isPrefixOf s then some (s.drop word.length) else none

/-- The value of a hexadecimal digit. -/
def hexValue? (c : Char) : Option Nat :=
  if c.isDigit then some (c.toNat - '0'.toNat)
  else if 'a' ≤ c ∧ c ≤ 'f' then some (c.toNat - 'a'.toNat + 10)
  else if 'A' ≤ c ∧ c ≤ 'F' then some (c.toNat - 'A'.toNat + 10)
  else none

/-- The value of four hexadecimal digits. -/
def hex4? (a b c d : Char) : Option Nat := do
  return 4096 * (← hexValue? a) + 256 * (← hexValue? b) + 16 * (← hexValue? c) + (← hexValue? d)

/-- The character of a one-letter escape. -/
def simpleEscape? (c : Char) : Option Char :=
  if c ∈ ['"', '\\', '/'] then some c
  else if c = 'b' then some '\x08'
  else if c = 'f' then some '\x0c'
  else if c = 'n' then some '\n'
  else if c = 'r' then some '\r'
  else if c = 't' then some '\t'
  else none

/-- Whether a code unit is the first half of a pair. -/
def isHighHalf (n : Nat) : Bool := 0xD800 ≤ n && n < 0xDC00

/-- Whether a code unit is the second half of a pair. -/
def isLowHalf (n : Nat) : Bool := 0xDC00 ≤ n && n < 0xE000

/-- The character of two halves. -/
def joinHalves (high low : Nat) : Char :=
  Char.ofNat (0x10000 + (high - 0xD800) * 0x400 + (low - 0xDC00))

/-- One code unit: what a string holds before halves are joined. -/
inductive Unit16 where
  /-- A character written as itself or by a one-letter escape. -/
  | char (c : Char)
  /-- A hexadecimal escape. -/
  | code (n : Nat)

/-- What follows an opening quote, up to the closing one: the code units and the rest. -/
def units? : Text → Option (List Unit16 × Text)
  | [] => none
  | '"' :: r => some ([], r)
  | '\\' :: 'u' :: a :: b :: c :: d :: r => do
    let n ← hex4? a b c d
    let (units, rest) ← units? r
    return (.code n :: units, rest)
  | '\\' :: c :: r => do
    let c ← simpleEscape? c
    let (units, rest) ← units? r
    return (.char c :: units, rest)
  | c :: r =>
    if c.toNat < 32 then none
    else do
      let (units, rest) ← units? r
      return (.char c :: units, rest)

/-- The characters that code units stand for. A half without its partner stands for none. -/
def characters? : List Unit16 → Option Text
  | [] => some []
  | .char c :: units => (characters? units).map (c :: ·)
  | .code high :: .code low :: units =>
    if isHighHalf high then
      if isLowHalf low then (characters? units).map (joinHalves high low :: ·) else none
    else if isLowHalf high then none
    else (characters? (.code low :: units)).map (Char.ofNat high :: ·)
  | .code n :: units =>
    if isHighHalf n || isLowHalf n then none
    else (characters? units).map (Char.ofNat n :: ·)

/-- A string, with its characters. -/
def string? (s : Text) : Option (Text × Text) :=
  match s with
  | '"' :: r => do
    let (units, rest) ← units? r
    return (← characters? units, rest)
  | _ => none

/-- `true` or `false`. -/
def bool? (s : Text) : Option (Bool × Text) :=
  match skipWord? "true".toList s with
  | some rest => some (true, rest)
  | none => (skipWord? "false".toList s).map (false, ·)

/-- The text after at least one digit. -/
def skipDigits? (s : Text) : Option Text :=
  if s.head?.any Char.isDigit then some (s.dropWhile Char.isDigit) else none

/-- The text after an exponent, if one begins here. -/
def skipExponent? (s : Text) : Option Text :=
  match s with
  | c :: r =>
    if c = 'e' ∨ c = 'E' then
      match r with
      | '+' :: t => skipDigits? t
      | '-' :: t => skipDigits? t
      | t => skipDigits? t
    else some s
  | [] => some []

/-- The text after a number. -/
def skipNumber? (s : Text) : Option Text := do
  let unsigned := if s.head? = some '-' then s.tail else s
  let whole ←
    match unsigned with
    | '0' :: r => if r.head?.any Char.isDigit then none else some r
    | _ => skipDigits? unsigned
  match whole with
  | '.' :: r => skipExponent? (← skipDigits? r)
  | _ => skipExponent? whole

mutual

/-- The text after a value. `depth` bounds the brackets inside one another; the length of the text
is enough. -/
def skipValue? (depth : Nat) (s : Text) : Option Text :=
  match s with
  | [] => none
  | '"' :: r => (units? r).map Prod.snd
  | 'n' :: r => skipWord? "ull".toList r
  | 't' :: r => skipWord? "rue".toList r
  | 'f' :: r => skipWord? "alse".toList r
  | '[' :: r =>
    match depth with
    | 0 => none
    | depth + 1 =>
      match skipBlank r with
      | ']' :: t => some t
      | t => skipItems? depth r.length t
  | '\x7b' :: r =>
    match depth with
    | 0 => none
    | depth + 1 =>
      match skipBlank r with
      | '\x7d' :: t => some t
      | t => skipMembers? depth r.length t
  | _ => skipNumber? s
termination_by (depth, 0)

/-- The text after the items of an array and its closing bracket. `count` bounds their number. -/
def skipItems? (depth count : Nat) (s : Text) : Option Text :=
  match count with
  | 0 => none
  | count + 1 =>
    match (skipValue? depth s).map skipBlank with
    | some (',' :: t) => skipItems? depth count (skipBlank t)
    | some (']' :: t) => some t
    | _ => none
termination_by (depth, count + 1)

/-- The text after the members of an object and its closing brace. `count` bounds their number. -/
def skipMembers? (depth count : Nat) (s : Text) : Option Text :=
  match count, s with
  | count + 1, '"' :: r =>
    match (units? r).map fun (_, rest) => skipBlank rest with
    | some (':' :: t) =>
      match (skipValue? depth (skipBlank t)).map skipBlank with
      | some (',' :: t) => skipMembers? depth count (skipBlank t)
      | some ('\x7d' :: t) => some t
      | _ => none
    | _ => none
  | _, _ => none
termination_by (depth, count + 1)

end

/-- The text after any value. -/
def skip? (s : Text) : Option Text := skipValue? s.length s

end TokenCorpus.Json
