import TokenCorpus.Tree
import TokenCorpus.Script.Lexeme

/-!
The language of scripts, said without a parser.

A tree is spelled by a row of lexemes, and a row of lexemes is laid out as a text by putting
separators and comments around them. A text renders a tree if it is such a layout of its spelling.
-/

namespace TokenCorpus.Script

def IsDigits (t : Text) : Prop := t ≠ [] ∧ ∀ c ∈ t, c.isDigit

def IsFraction (t : Text) : Prop := t = [] ∨ ∃ digits, IsDigits digits ∧ t = '.' :: digits

def IsUnsigned (t : Text) : Prop := ∃ whole part, IsDigits whole ∧ IsFraction part ∧ t = whole ++ part

/-- A decimal number: an optional minus sign, digits, and an optional point with digits after it. -/
def IsNumber (t : Text) : Prop := IsUnsigned t ∨ ∃ r, IsUnsigned r ∧ t = '-' :: r

def IsBoolean (t : Text) : Prop := t = "true".toList ∨ t = "false".toList

def IsSymbol (t : Text) : Prop :=
  ∃ c r, isSymbolStart c ∧ (∀ d ∈ r, isSymbolChar d) ∧ t = c :: r

/-- What may stand between the quotes of a string: a backslash takes the next character with it,
and no other character is a quote. -/
inductive IsStringBody : Text → Prop
  | nil : IsStringBody []
  | plain {c : Char} {t : Text} (hquote : c ≠ '"') (hescape : c ≠ '\\') (ht : IsStringBody t) :
      IsStringBody (c :: t)
  | escape {c : Char} {t : Text} (ht : IsStringBody t) : IsStringBody ('\\' :: c :: t)

/-- The text of a string, with its quotes. -/
def quoted (body : Text) : Text := '"' :: (body ++ ['"'])

/-- A piece of a script that nothing may divide. -/
inductive Lexeme where
  /-- A bracket or a quotation mark. -/
  | mark (c : Char)
  | string (body : Text)
  /-- A number, a boolean, a symbol, or three points with a symbol glued to them. -/
  | word (first : Char) (more : Text)

namespace Lexeme

def text : Lexeme → Text
  | mark c => [c]
  | string body => quoted body
  | word first more => first :: more

def isWord : Lexeme → Bool
  | word .. => true
  | mark _ | string _ => false

/-- Whether a word directly before the lexeme would run on into it. -/
def startsSymbolic (l : Lexeme) : Bool := l.text.head?.any isSymbolChar

end Lexeme

/-- Separators and comments, each comment with the end of its line. -/
inductive Trivia : Text → Prop
  | nil : Trivia []
  | separator {c : Char} {t : Text} (hc : isSeparator c) (ht : Trivia t) : Trivia (c :: t)
  | comment {body t : Text} (hbody : '\n' ∉ body) (ht : Trivia t) :
      Trivia (';' :: (body ++ '\n' :: t))

/-- Separators and comments at the end of a script, where the last comment needs no end of line. -/
def FinalTrivia (t : Text) : Prop :=
  ∃ gap last, Trivia gap ∧ (last = [] ∨ ∃ body, '\n' ∉ body ∧ last = ';' :: body) ∧ t = gap ++ last

/-- The layouts of a row of lexemes. `afterWord` says whether a word comes before the row; something
must lie between it and a lexeme that it would run on into. -/
inductive Layout : Bool → List Lexeme → Text → Prop
  | last {afterWord : Bool} {t : Text} (ht : FinalTrivia t) : Layout afterWord [] t
  | next {afterWord : Bool} {gap rest : Text} {l : Lexeme} {ls : List Lexeme} (hgap : Trivia gap)
      (hapart : afterWord → l.startsSymbolic → gap ≠ []) (hrest : Layout l.isWord ls rest) :
      Layout afterWord (l :: ls) (gap ++ (l.text ++ rest))

/-- The nodes that one lexeme spells. Only behind three points may a symbol look like a number or a
boolean. -/
inductive OneLexeme : Node → Lexeme → Prop
  | number {c : Char} {r : Text} (h : IsNumber (c :: r)) : OneLexeme (.literal (c :: r)) (.word c r)
  | boolean {c : Char} {r : Text} (h : IsBoolean (c :: r)) : OneLexeme (.literal (c :: r)) (.word c r)
  | string {body : Text} (h : IsStringBody body) : OneLexeme (.literal (quoted body)) (.string body)
  | identifier {c : Char} {r : Text} (h : IsSymbol (c :: r)) (hnumber : ¬ IsNumber (c :: r))
      (hboolean : ¬ IsBoolean (c :: r)) : OneLexeme (.identifier (c :: r)) (.word c r)
  | spread {name : Text} (h : IsSymbol name) :
      OneLexeme (.composite .spread [.identifier name]) (.word '.' ('.' :: '.' :: name))

/-- The brackets around a list and around a block. -/
inductive Brackets : Kind → Char → Char → Prop
  | list : Brackets .list '(' ')'
  | block : Brackets .block '\x7b' '\x7d'

/-- The lexemes of a row of nodes, in order. -/
inductive Spells : List Node → List Lexeme → Prop
  | nil : Spells [] []
  | one {node : Node} {l : Lexeme} {nodes : List Node} {ls : List Lexeme} (h : OneLexeme node l)
      (hnodes : Spells nodes ls) : Spells (node :: nodes) (l :: ls)
  | quote {node : Node} {nodes : List Node} {inner ls : List Lexeme} (h : Spells [node] inner)
      (hnodes : Spells nodes ls) :
      Spells (.composite .quote [node] :: nodes) (.mark '\'' :: (inner ++ ls))
  | group {kind : Kind} {opening closing : Char} {children nodes : List Node}
      {inner ls : List Lexeme} (hkind : Brackets kind opening closing) (h : Spells children inner)
      (hnodes : Spells nodes ls) :
      Spells (.composite kind children :: nodes)
        (.mark opening :: (inner ++ .mark closing :: ls))

/-- The texts of a whole script. -/
def Renders (tree : Node) (source : Text) : Prop :=
  ∃ nodes lexemes, tree = .composite .program nodes ∧ Spells nodes lexemes ∧
    Layout false lexemes source

end TokenCorpus.Script
