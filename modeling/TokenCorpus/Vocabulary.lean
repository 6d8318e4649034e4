import TokenCorpus.Text
import TokenCorpus.Sorting

/-!
How often tokens occur, and the vocabularies made of the frequent ones.
-/

namespace TokenCorpus

/-- A token with the number of its occurrences. -/
structure TokenCount where
  count : Nat
  token : Text
  deriving DecidableEq, Repr, Inhabited

/-- The order of vocabularies: frequent tokens first, equally frequent ones by their bytes. -/
def TokenCount.le (a b : TokenCount) : Bool :=
  b.count < a.count || (a.count == b.count && a.token.bytewiseLe b.token)

/-- The occurrences of each token seen so far. -/
structure TokenCounts where
  /-- One entry for each different token, in the order of first sight. -/
  entries : List TokenCount
  deriving DecidableEq, Repr

namespace TokenCounts

/-- Nothing seen. -/
def empty : TokenCounts := ⟨[]⟩

instance : Inhabited TokenCounts := ⟨empty⟩

/-- One more occurrence of `token` among the entries. -/
def bump (token : Text) : List TokenCount → List TokenCount
  | [] => [⟨1, token⟩]
  | e :: es => if e.token = token then ⟨e.count + 1, e.token⟩ :: es else e :: bump token es

/-- Counts one occurrence. -/
def add (counts : TokenCounts) (token : Text) : TokenCounts := ⟨bump token counts.entries⟩

/-- Counts the tokens in order. -/
def addAll (counts : TokenCounts) (tokens : List Text) : TokenCounts := tokens.foldl add counts

/-- How often a token was counted. -/
def get (counts : TokenCounts) (token : Text) : Nat :=
  ((counts.entries.find? (·.token = token)).map TokenCount.count).getD 0

/-- The number of different tokens. -/
def distinct (counts : TokenCounts) : Nat := counts.entries.length

/-- The number of all occurrences. -/
def total (counts : TokenCounts) : Nat := counts.entries.foldr (fun e n => e.count + n) 0

end TokenCounts

/-- Tokens in vocabulary order. -/
structure Vocabulary where
  entries : List TokenCount
  deriving DecidableEq, Repr, Inhabited

/-- The tokens counted at least `minCount` times. -/
def TokenCounts.vocabulary (counts : TokenCounts) (minCount : Nat) : Vocabulary :=
  ⟨inOrder TokenCount.le (counts.entries.filter (minCount ≤ ·.count))⟩

namespace Vocabulary

/-- The count that a token needs unless another one is asked for. -/
def defaultMinCount : Nat := 2

/-- The pieces of the line of an entry: the count, a tab, the token. -/
def line (e : TokenCount) : List Text := [Text.ofNat e.count, ['\t'], e.token, ['\n']]

/-- Writes one line for each entry. -/
def write {m : Type → Type} [Monad m] (v : Vocabulary) (put : Text → m Unit) : m Unit :=
  v.entries.forM fun e => (line e).forM put

/-- The text of a vocabulary file. -/
def render (v : Vocabulary) : Text := (v.entries.flatMap line).flatten

end Vocabulary

end TokenCorpus
