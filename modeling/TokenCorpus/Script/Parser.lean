import TokenCorpus.Tree
import TokenCorpus.Diagnostic
import TokenCorpus.Script.Lexeme
import TokenCorpus.Script.Attempts

/-!
The parser of scripts.

A script is a row of expressions with separators and comments between them. An expression is, tried
in this order, a quoted expression, a spread symbol, a list in parentheses, a block in braces, or a
word. The parser descends on the text that is left; each reply carries the proof that something was
read, and what was tried on the way.
-/

namespace TokenCorpus.Script

/-- The answer of a parser at `s`: a node and the rest after it, or a refusal. -/
inductive Reply (s : Text) where
  | found (node : Node) (rest : Text) (shorter : rest.length < s.length) (attempts : Attempts)
  | refused (attempts : Attempts)

/-- The first reply if it found something, the next one otherwise. -/
def Reply.orElse {s : Text} (first : Reply s) (next : Attempts → Reply s) : Reply s :=
  match first with
  | found node rest shorter attempts => found node rest shorter attempts
  | refused attempts => next attempts

/-- The expressions read at `s`, up to where no further one begins. -/
structure Row (s : Text) where
  nodes : List Node
  rest : Text
  le : rest.length ≤ s.length
  attempts : Attempts

/-- A leaf that is one word. -/
def word (form : Expected) (scanner : Scanner) (leaf : Text → Node) (s : Text) (a : Attempts) :
    Reply s :=
  match h : scanner.scan s with
  | some (w, rest) => .found (leaf w) rest (scanner.length_lt h) a
  | none => .refused (a.note form s.length a)

/-- Three points with a symbol glued to them. -/
def spread (s : Text) (a : Attempts) : Reply s :=
  match s with
  | '.' :: '.' :: '.' :: t =>
    match word .symbol symbolWord .identifier t a with
    | .found node rest shorter a' =>
      .found (.composite .spread [node]) rest (by simp only [List.length_cons]; omega) a'
    | .refused a' => .refused (a'.note .spread ('.' :: '.' :: '.' :: t).length a)
  | s => .refused (a.note .spread s.length a)

mutual

/-- One expression. -/
def expression (s : Text) (a : Attempts) : Reply s :=
  (quote s a).orElse fun a =>
  (spread s a).orElse fun a =>
  (group .list .list '(' ')' s a).orElse fun a =>
  (group .block .block '\x7b' '\x7d' s a).orElse fun a =>
  (word .number numberWord .literal s a).orElse fun a =>
  (word .string stringWord .literal s a).orElse fun a =>
  (word .boolean booleanWord .literal s a).orElse fun a =>
  word .symbol symbolWord .identifier s a
termination_by 3 * s.length + 1

/-- An expression behind a quotation mark. -/
def quote (s : Text) (a : Attempts) : Reply s :=
  match s with
  | '\'' :: t =>
    match expression (skipTrivia t) a with
    | .found node rest shorter a' =>
      .found (.composite .quote [node]) rest
        (by have := length_skipTrivia_le t; simp only [List.length_cons]; omega) a'
    | .refused a' => .refused (a'.note .quote ('\'' :: t).length a)
  | s => .refused (a.note .quote s.length a)
termination_by 3 * s.length
decreasing_by
  have := length_skipTrivia_le t
  simp only [List.length_cons]
  omega

/-- Expressions between two brackets. -/
def group (form : Expected) (kind : Kind) (opening closing : Char) (s : Text) (a : Attempts) :
    Reply s :=
  match s with
  | [] => .refused (a.note form 0 a)
  | c :: t =>
    if c = opening then
      let inner := row (skipTrivia t) a
      match h : inner.rest with
      | [] => .refused (inner.attempts.note form (c :: t).length a)
      | d :: rest =>
        if d = closing then
          .found (.composite kind inner.nodes) rest
            (by
              have := length_skipTrivia_le t
              have := inner.le
              simp only [h, List.length_cons] at this ⊢
              omega)
            inner.attempts
        else .refused (inner.attempts.note form (c :: t).length a)
    else .refused (a.note form (c :: t).length a)
termination_by 3 * s.length
decreasing_by
  have := length_skipTrivia_le t
  simp only [List.length_cons]
  omega

/-- As many expressions as follow one another. -/
def row (s : Text) (a : Attempts) : Row s :=
  match expression s a with
  | .refused a' => ⟨[], s, Nat.le_refl _, a'⟩
  | .found node rest shorter a' =>
    let more := row (skipTrivia rest) a'
    ⟨node :: more.nodes, more.rest,
      by have := length_skipTrivia_le rest; have := more.le; omega, more.attempts⟩
termination_by 3 * s.length + 2
decreasing_by
  · omega
  · have := length_skipTrivia_le rest
    omega

end

/-- The tree of a whole script, or what was tried. -/
def program (source : Text) : Except Attempts Node :=
  let start := Attempts.start source
  let body := row (skipTrivia source) start
  match body.rest with
  | [] => .ok (.composite .program body.nodes)
  | _ :: _ =>
    let a := body.attempts.note .endOfInput body.rest.length body.attempts
    .error (a.note .program source.length start)

/-- The advice for scripts that break off. -/
def endedEarly : String :=
  "input ended early; look for an unclosed '(', '\x7b' or '\"'"

/-- The byte offset of the place with `left` characters left. -/
def offsetOf (source : Text) (left : Nat) : Nat :=
  Text.byteLength (source.take (source.length - left))

/-- The parse error for a refused script. An error at the end of the text comes with advice. -/
def refusal (path source : Text) (a : Attempts) : ParseError :=
  let offset := offsetOf source a.left
  let e := ParseError.plain path source a.message.toList offset 0
  if source.byteLength ≤ offset then e.withHelp endedEarly.toList else e

/-- Parses a script. -/
def parse (path source : Text) : Except ParseError Node :=
  (program source).mapError (refusal path source)

end TokenCorpus.Script
