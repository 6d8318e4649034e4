import TokenCorpus.Text.Blank

/-!
Subtokens: the lowercase parts of an identifier-like token.

A token is cut from left to right into words, acronyms, digits and runs of punctuation. A leading
row of underscores is a part of its own; underscores further on only separate parts. A token that
cannot be cut to its end has one part, itself.
-/

namespace TokenCorpus

namespace Subtoken

/-- The punctuation that forms runs. Characters of one group run together. -/
def punctuation : List Text :=
  [".", "-", ":", "*", "&", "^", "\"'", "/", "~", "<>", "[]", "()"].map String.toList

/-- The group of a punctuation character. -/
def group? (c : Char) : Option Text := punctuation.find? (c ∈ ·)

/-- The length of the capitals at the front that stand for an acronym. When a lowercase letter
follows, the last capital belongs to the next word. -/
def acronymLength (body : Text) : Nat :=
  let capitals := (body.takeWhile Char.isUpper).length
  if (body.drop capitals).head?.any Char.isLower then capitals - 1 else capitals

/-- The length of the word at the front: lowercase letters, with or without one capital before
them. -/
def wordLength (body : Text) : Nat :=
  match body with
  | [] => 0
  | c :: r =>
    let lower := (r.takeWhile Char.isLower).length
    if c.isLower || (c.isUpper && 0 < lower) then lower + 1 else 0

/-- The length of the punctuation run at the front. -/
def punctuationLength (body : Text) : Nat :=
  match body.head?.bind group? with
  | none => 0
  | some group => (body.takeWhile (· ∈ group)).length

/-- The length of the part at the front; zero if none begins there. -/
def partLength (body : Text) : Nat :=
  if 0 < acronymLength body then acronymLength body
  else if 0 < punctuationLength body then punctuationLength body
  else if 0 < (body.takeWhile Char.isDigit).length then (body.takeWhile Char.isDigit).length
  else wordLength body

/-- The parts of what follows the leading part, if it can be cut to its end. -/
def parts? (s : Text) : Option (List Text) :=
  if hs : s = [] then some []
  else
    let body := s.dropWhile (· = '_')
    if hn : partLength body = 0 then none
    else
      have shorter : (body.drop (partLength body)).length < s.length := by
        have hbody := (List.dropWhile_suffix (l := s) (· = '_')).length_le
        have hpos := List.length_pos_iff.mpr hs
        simp only [body, List.length_drop] at hn ⊢
        omega
      (parts? (body.drop (partLength body))).map
        ((body.take (partLength body)).map Char.toLower :: ·)
termination_by s.length
decreasing_by exact shorter

/-- The leading part, a row of underscores or of lowercase letters, and the rest. -/
def leading (token : Text) : Text × Text :=
  match token with
  | [] => ([], [])
  | c :: _ =>
    if c = '_' then (token.takeWhile (· = '_'), token.dropWhile (· = '_'))
    else (token.takeWhile Char.isLower, token.dropWhile Char.isLower)

end Subtoken

/-- The subtokens of one token. -/
def subtokens (token : Text) : List Text :=
  let (first, rest) := Subtoken.leading token
  match Subtoken.parts? rest with
  | none => [token]
  | some parts => if first = [] then parts else first :: parts

/-- The subtokens of a text that may hold blanks: those of each of its words. -/
def subtokensOfText (t : Text) : List Text := t.words.flatMap subtokens

end TokenCorpus
