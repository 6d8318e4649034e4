import TokenCorpus.Text

/-!
JSON values and their two layouts: compact, and pretty with two spaces for each level.
-/

namespace TokenCorpus

/-- A JSON value. Numbers are natural; the fields of an object keep their order. -/
inductive Json where
  | null
  | bool (value : Bool)
  | number (value : Nat)
  | string (value : Text)
  | array (items : List Json)
  | object (fields : List (Text × Json))
  deriving Repr, Inhabited

namespace Json

/-- A hexadecimal escape of a control character. -/
def controlEscape (c : Char) : Text :=
  "\\u00".toList ++ [Nat.digitChar (c.toNat / 16), Nat.digitChar (c.toNat % 16)]

/-- A character inside a quoted string. -/
def escape (c : Char) : Text :=
  if c = '"' then "\\\"".toList
  else if c = '\\' then "\\\\".toList
  else if c = '\n' then "\\n".toList
  else if c = '\r' then "\\r".toList
  else if c = '\t' then "\\t".toList
  else if c.toNat = 8 then "\\b".toList
  else if c.toNat = 12 then "\\f".toList
  else if c.toNat < 32 then controlEscape c
  else [c]

/-- A quoted string. -/
def quoted (t : Text) : Text := '"' :: t.flatMap escape ++ ['"']

/-- `true` or `false`. -/
def boolText (b : Bool) : Text := if b then "true".toList else "false".toList

/-- A new line at the given depth. -/
def newline (depth : Nat) : Text := '\n' :: List.replicate (2 * depth) ' '

mutual

/-- The value in one line, without blanks. -/
def compact : Json → Text
  | null => "null".toList
  | bool b => boolText b
  | number n => Text.ofNat n
  | string t => quoted t
  | array items => '[' :: [','].intercalate (compactItems items) ++ [']']
  | object fields => '\x7b' :: [','].intercalate (compactFields fields) ++ ['\x7d']

/-- The items of an array, each in one line. -/
def compactItems : List Json → List Text
  | [] => []
  | item :: items => item.compact :: compactItems items

/-- The fields of an object, each in one line. -/
def compactFields : List (Text × Json) → List Text
  | [] => []
  | (name, value) :: fields => (quoted name ++ ':' :: value.compact) :: compactFields fields

end

mutual

/-- The value over several lines, starting at the given depth. Empty arrays and objects stay in
one line. -/
def pretty (depth : Nat) : Json → Text
  | null => "null".toList
  | bool b => boolText b
  | number n => Text.ofNat n
  | string t => quoted t
  | array [] => "[]".toList
  | array items =>
    '[' :: [','].intercalate (prettyItems (depth + 1) items) ++ newline depth ++ [']']
  | object [] => ['\x7b', '\x7d']
  | object fields =>
    '\x7b' :: [','].intercalate (prettyFields (depth + 1) fields) ++ newline depth ++ ['\x7d']

/-- The items of an array, each on lines of its own. -/
def prettyItems (depth : Nat) : List Json → List Text
  | [] => []
  | item :: items => (newline depth ++ item.pretty depth) :: prettyItems depth items

/-- The fields of an object, each on lines of its own. -/
def prettyFields (depth : Nat) : List (Text × Json) → List Text
  | [] => []
  | (name, value) :: fields =>
    (newline depth ++ quoted name ++ ": ".toList ++ value.pretty depth) :: prettyFields depth fields

end

end Json

end TokenCorpus
