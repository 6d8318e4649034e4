import TokenCorpus.Script.Parser
import TokenCorpus.Proofs.Script.Words

/-!
What the parser reads, apart from what it tried.

The attempts that are handed through the parser never decide what it finds. So each of its functions
has an answer that depends on the text alone, and these answers have equations of their own.
-/

namespace TokenCorpus.Script

/-- What a reply has found, and the text after it. -/
def Reply.found? {s : Text} : Reply s → Option (Node × Text)
  | found node rest _ _ => some (node, rest)
  | refused _ => none

def Row.read {s : Text} (r : Row s) : List Node × Text := (r.nodes, r.rest)

theorem found?_orElse {s : Text} {first : Reply s} {next : Attempts → Reply s}
    {answer : Option (Node × Text)} (hnext : ∀ a, (next a).found? = answer) :
    (first.orElse next).found? = first.found?.or answer := by
  cases first with
  | found => rfl
  | refused a => exact hnext a

/-- The leaf that a scanner splits off. -/
def Scanner.leaf (k : Scanner) (leaf : Text → Node) (s : Text) : Option (Node × Text) :=
  (k.scan s).map fun (w, rest) => (leaf w, rest)

theorem found?_word (form : Expected) (k : Scanner) (leaf : Text → Node) (s : Text) (a : Attempts) :
    (word form k leaf s a).found? = k.leaf leaf s := by
  unfold word Scanner.leaf
  split
  · next h => simp only [Reply.found?, h, Option.map_some]
  · next h => simp only [Reply.found?, h, Option.map_none]

/-- The spread symbol at the front. -/
def spreadAt (s : Text) : Option (Node × Text) :=
  match s with
  | '.' :: '.' :: '.' :: t => symbolWord.leaf (fun w => .composite .spread [.identifier w]) t
  | _ => none

theorem spreadAt_of_ne {s : Text} (h : ∀ t, s ≠ '.' :: '.' :: '.' :: t) : spreadAt s = none := by
  unfold spreadAt
  split
  · next t => exact absurd rfl (h t)
  · rfl

theorem found?_spread (s : Text) (a : Attempts) : (spread s a).found? = spreadAt s := by
  by_cases hs : ∃ t, s = '.' :: '.' :: '.' :: t
  · obtain ⟨t, rfl⟩ := hs
    have hword := found?_word .symbol symbolWord .identifier t a
    simp only [spread, spreadAt, Scanner.leaf] at hword ⊢
    cases hreply : word .symbol symbolWord .identifier t a with
    | found node rest shorter a' =>
      rw [hreply] at hword
      obtain ⟨⟨w, r⟩, hw, heq⟩ := Option.map_eq_some_iff.mp hword.symm
      obtain ⟨rfl, rfl⟩ := Prod.mk.inj heq
      simp only [hw, Reply.found?, Option.map_some]
    | refused a' =>
      rw [hreply] at hword
      rw [Option.map_eq_none_iff.mp hword.symm]
      rfl
  · have hne : ∀ t, s ≠ '.' :: '.' :: '.' :: t := fun t ht => hs ⟨t, ht⟩
    rw [spreadAt_of_ne hne, spread]
    · rfl
    · exact hne

/-- The leaf at the front, be it a word, a string or a spread symbol. -/
def leafAt (s : Text) : Option (Node × Text) :=
  (spreadAt s).or <| (numberWord.leaf .literal s).or <| (stringWord.leaf .literal s).or <|
    (booleanWord.leaf .literal s).or <| symbolWord.leaf .identifier s

theorem found?_quote_cons (t : Text) (a : Attempts) :
    (quote ('\'' :: t) a).found? =
      (expression (skipTrivia t) a).found?.map fun (node, rest) => (.composite .quote [node], rest) := by
  rw [quote]
  split
  · next h => rw [h]; rfl
  · next h => rw [h]; rfl

theorem found?_quote_of_ne {s : Text} (h : ∀ t, s ≠ '\'' :: t) (a : Attempts) :
    (quote s a).found? = none := by
  rw [quote]
  · rfl
  · exact h

/-- A closed row of nodes, as one node. -/
def closeRow (kind : Kind) (closing : Char) : List Node × Text → Option (Node × Text)
  | (nodes, d :: rest) => if d = closing then some (.composite kind nodes, rest) else none
  | (_, []) => none

theorem found?_group_cons (form : Expected) (kind : Kind) (opening closing : Char) (t : Text)
    (a : Attempts) :
    (group form kind opening closing (opening :: t) a).found? =
      closeRow kind closing (row (skipTrivia t) a).read := by
  rw [group, if_pos rfl]
  dsimp only [Row.read]
  split
  · next h => rw [h]; rfl
  · next d rest h =>
    have hclose : closeRow kind closing ((row (skipTrivia t) a).nodes, (row (skipTrivia t) a).rest) =
        if d = closing then some (.composite kind (row (skipTrivia t) a).nodes, rest) else none := by
      rw [h]
      rfl
    rw [hclose]
    split <;> rfl

theorem found?_group_of_ne {form : Expected} {kind : Kind} {opening closing : Char} {s : Text}
    (h : ∀ t, s ≠ opening :: t) (a : Attempts) :
    (group form kind opening closing s a).found? = none := by
  cases s with
  | nil => rw [group]; rfl
  | cons c t =>
    rw [group, if_neg (fun hc => h t (by rw [hc]))]
    rfl

/-- A group is found whatever was tried before, if that holds of the row in it. -/
theorem found?_group_congr {s : Text} {opening : Char}
    (hrow : ∀ t, s = opening :: t →
      ∀ a b, (row (skipTrivia t) a).read = (row (skipTrivia t) b).read)
    (form : Expected) (kind : Kind) (closing : Char) (a b : Attempts) :
    (group form kind opening closing s a).found? =
      (group form kind opening closing s b).found? := by
  by_cases h : ∃ t, s = opening :: t
  · obtain ⟨t, rfl⟩ := h
    rw [found?_group_cons, found?_group_cons, hrow t rfl a b]
  · have hne : ∀ t, s ≠ opening :: t := fun t ht => h ⟨t, ht⟩
    rw [found?_group_of_ne hne, found?_group_of_ne hne]

theorem read_row_of_refused {s : Text} {a a' : Attempts} (h : expression s a = .refused a') :
    (row s a).read = ([], s) := by
  rw [row, h]
  rfl

theorem read_row_of_found {s : Text} {a a' : Attempts} {node : Node} {rest : Text}
    {shorter : rest.length < s.length} (h : expression s a = .found node rest shorter a') :
    (row s a).read =
      (node :: (row (skipTrivia rest) a').nodes, (row (skipTrivia rest) a').rest) := by
  rw [row, h]
  rfl

/-- The alternatives of an expression, where the answers for its groups are settled. -/
theorem found?_expression {s : Text} {list block : Option (Node × Text)}
    (hlist : ∀ a, (group .list .list '(' ')' s a).found? = list)
    (hblock : ∀ a, (group .block .block '\x7b' '\x7d' s a).found? = block) (a : Attempts) :
    (expression s a).found? =
      (quote s a).found?.or ((spreadAt s).or (list.or (block.or
        ((numberWord.leaf .literal s).or <| (stringWord.leaf .literal s).or <|
          (booleanWord.leaf .literal s).or <| symbolWord.leaf .identifier s)))) := by
  rw [expression]
  rw [found?_orElse fun a => ?_]
  rw [found?_orElse fun a => ?_, found?_spread]
  rw [found?_orElse fun a => ?_, hlist]
  rw [found?_orElse fun a => ?_, hblock]
  rw [found?_orElse fun a => ?_, found?_word]
  rw [found?_orElse fun a => ?_, found?_word]
  rw [found?_orElse fun a => found?_word .symbol symbolWord .identifier s a, found?_word]

/-- What is found does not depend on what was tried before. -/
theorem read_independent (s : Text) :
    (∀ a b, (expression s a).found? = (expression s b).found?) ∧
      ∀ a b, (row s a).read = (row s b).read := by
  induction hn : s.length using Nat.strong_induction_on generalizing s with
  | _ n ih =>
    have hshorter : ∀ {c : Char} {t : Text}, s = c :: t → (skipTrivia t).length < n := by
      intro c t hs
      have := length_skipTrivia_le t
      rw [hs, List.length_cons] at hn
      omega
    have hquote : ∀ a b, (quote s a).found? = (quote s b).found? := by
      intro a b
      by_cases h : ∃ t, s = '\'' :: t
      · obtain ⟨t, rfl⟩ := h
        rw [found?_quote_cons, found?_quote_cons, (ih _ (hshorter rfl) _ rfl).1 a b]
      · have hne : ∀ t, s ≠ '\'' :: t := fun t ht => h ⟨t, ht⟩
        rw [found?_quote_of_ne hne, found?_quote_of_ne hne]
    have hgroup : ∀ form kind opening closing a b, (group form kind opening closing s a).found? =
        (group form kind opening closing s b).found? := by
      intro form kind opening closing
      exact found?_group_congr (fun t hs => (ih _ (hshorter hs) _ rfl).2) form kind closing
    have hexpression : ∀ a b, (expression s a).found? = (expression s b).found? := by
      intro a b
      rw [found?_expression (fun c => hgroup _ _ _ _ c a) (fun c => hgroup _ _ _ _ c a) a,
        found?_expression (fun c => hgroup _ _ _ _ c a) (fun c => hgroup _ _ _ _ c a) b, hquote a b]
    refine ⟨hexpression, fun a b => ?_⟩
    have heq := hexpression a b
    cases ha : expression s a with
    | refused =>
      cases hb : expression s b with
      | refused => rw [read_row_of_refused ha, read_row_of_refused hb]
      | found => rw [ha, hb] at heq; cases heq
    | found node rest shorter a' =>
      cases hb : expression s b with
      | refused => rw [ha, hb] at heq; cases heq
      | found node' rest' shorter' b' =>
        rw [ha, hb] at heq
        obtain ⟨rfl, rfl⟩ := Prod.mk.inj (Option.some.inj heq)
        rw [read_row_of_found ha, read_row_of_found hb]
        have hrest : (skipTrivia rest).length < n := by
          have := length_skipTrivia_le rest
          omega
        have hmore := (ih _ hrest _ rfl).2 a' b'
        unfold Row.read at hmore
        obtain ⟨hnodes, hend⟩ := Prod.mk.inj hmore
        rw [hnodes, hend]

/-- The expression at the front of a text. -/
def readOne (s : Text) : Option (Node × Text) := (expression s (.start s)).found?

/-- The expressions at the front of a text, as many as follow one another. -/
def readRow (s : Text) : List Node × Text := (row s (.start s)).read

theorem found?_expression_eq_readOne (s : Text) (a : Attempts) :
    (expression s a).found? = readOne s :=
  (read_independent s).1 a _

theorem read_row_eq_readRow (s : Text) (a : Attempts) : (row s a).read = readRow s :=
  (read_independent s).2 a _

theorem readRow_of_none {s : Text} (h : readOne s = none) : readRow s = ([], s) := by
  cases hreply : expression s (.start s) with
  | refused => exact read_row_of_refused hreply
  | found => rw [readOne, hreply] at h; cases h

theorem readRow_of_some {s : Text} {node : Node} {rest : Text} (h : readOne s = some (node, rest)) :
    readRow s = (node :: (readRow (skipTrivia rest)).1, (readRow (skipTrivia rest)).2) := by
  cases hreply : expression s (.start s) with
  | refused => rw [readOne, hreply] at h; cases h
  | found node' rest' shorter a' =>
    rw [readOne, hreply] at h
    obtain ⟨rfl, rfl⟩ := Prod.mk.inj (Option.some.inj h)
    rw [readRow, read_row_of_found hreply, ← read_row_eq_readRow _ a']
    rfl

theorem length_lt_of_readOne {s : Text} {node : Node} {rest : Text}
    (h : readOne s = some (node, rest)) : rest.length < s.length := by
  cases hreply : expression s (.start s) with
  | refused => rw [readOne, hreply] at h; cases h
  | found node' rest' shorter a' =>
    rw [readOne, hreply] at h
    obtain ⟨rfl, rfl⟩ := Prod.mk.inj (Option.some.inj h)
    exact shorter

/-! ## Leaves -/

theorem Scanner.leaf_eq_some_iff {k : Scanner} {leaf : Text → Node} {s : Text} {node : Node}
    {rest : Text} :
    k.leaf leaf s = some (node, rest) ↔ ∃ w, k.scan s = some (w, rest) ∧ node = leaf w := by
  simp only [Scanner.leaf, Option.map_eq_some_iff, Prod.mk.injEq]
  constructor
  · rintro ⟨⟨w, t⟩, hw, rfl, rfl⟩
    exact ⟨w, hw, rfl⟩
  · rintro ⟨w, hw, rfl⟩
    exact ⟨_, hw, rfl, rfl⟩

theorem Scanner.leaf_eq_none {k : Scanner} {leaf : Text → Node} {s : Text}
    (h : ∀ w rest, k.scan s ≠ some (w, rest)) : k.leaf leaf s = none := by
  rw [Option.eq_none_iff_forall_ne_some]
  rintro ⟨node, rest⟩ heq
  obtain ⟨w, hw, _⟩ := leaf_eq_some_iff.mp heq
  exact h w rest hw

/-- Two words that stand alone at the front of one text are the same word. -/
theorem word_unique {a b r t : Text} (ha : ∀ c ∈ a, isSymbolChar c) (hb : ∀ c ∈ b, isSymbolChar c)
    (hr : endsWord r) (ht : endsWord t) (heq : a ++ r = b ++ t) : a = b ∧ r = t := by
  have hleft := run_append ha (head?_all_of_endsWord (fun _ h => h) hr)
  have hright := run_append hb (head?_all_of_endsWord (fun _ h => h) ht)
  rw [heq, hright] at hleft
  obtain ⟨hword, hrest⟩ := Prod.mk.inj hleft
  exact ⟨hword.symm, hrest.symm⟩

theorem spreadAt_eq_some_iff {s : Text} {node : Node} {rest : Text} :
    spreadAt s = some (node, rest) ↔ ∃ name, IsSymbol name ∧
      node = .composite .spread [.identifier name] ∧ s = '.' :: '.' :: '.' :: (name ++ rest) ∧
      endsWord rest := by
  by_cases hs : ∃ t, s = '.' :: '.' :: '.' :: t
  · obtain ⟨t, rfl⟩ := hs
    simp only [spreadAt, Scanner.leaf_eq_some_iff]
    constructor
    · rintro ⟨w, hw, rfl⟩
      obtain ⟨hsymbol, rfl, hends⟩ := symbol?_eq_some_iff.mp hw
      exact ⟨w, hsymbol, rfl, rfl, hends⟩
    · rintro ⟨name, hname, rfl, heq, hends⟩
      have ht : t = name ++ rest := by simpa using heq
      exact ⟨name, symbol?_eq_some_iff.mpr ⟨hname, ht, hends⟩, rfl⟩
  · rw [spreadAt_of_ne fun t ht => hs ⟨t, ht⟩]
    constructor
    · intro h
      cases h
    · rintro ⟨name, _, _, heq, _⟩
      exact absurd ⟨_, heq⟩ hs

theorem spreadAt_eq_none {c : Char} {t : Text} (h : c ≠ '.') : spreadAt (c :: t) = none := by
  refine spreadAt_of_ne fun r heq => h ?_
  exact (List.cons.inj heq).1

theorem IsNumber.head_ne {c : Char} {t : Text} (h : IsNumber (c :: t)) :
    c ≠ '.' ∧ c ≠ 't' ∧ c ≠ 'f' ∧ c ≠ '"' := by
  have hc : c.isDigit ∨ c = '-' := by
    rcases h with h | ⟨r, _, heq⟩
    · obtain ⟨d, r, hd, heq⟩ := h.exists_digit
      rw [(List.cons.inj heq).1]
      exact Or.inl hd
    · exact Or.inr (List.cons.inj heq).1
  refine ⟨?_, ?_, ?_, ?_⟩ <;> rintro rfl <;> exact absurd hc (by decide)

theorem IsBoolean.not_isNumber {t : Text} (h : IsBoolean t) : ¬ IsNumber t := by
  rcases h with rfl | rfl
  · exact fun hn => hn.head_ne.2.1 rfl
  · exact fun hn => hn.head_ne.2.2.1 rfl

theorem OneLexeme.all_isSymbolChar {node : Node} {l : Lexeme} (h : OneLexeme node l)
    (hword : l.isWord) : ∀ c ∈ l.text, isSymbolChar c := by
  cases h with
  | number h => exact h.all_isSymbolChar
  | boolean h => exact h.all_isSymbolChar
  | string h => cases hword
  | identifier h => exact h.all_isSymbolChar
  | spread h =>
    intro c hc
    rcases List.mem_cons.mp hc with rfl | hc
    · decide
    rcases List.mem_cons.mp hc with rfl | hc
    · decide
    rcases List.mem_cons.mp hc with rfl | hc
    · decide
    · exact h.all_isSymbolChar c hc

/-- A number at the front of a lone word is the whole word. -/
theorem number_leaf_eq_none {w rest : Text} (hw : ∀ c ∈ w, isSymbolChar c) (hends : endsWord rest)
    (hnumber : ¬ IsNumber w) : numberWord.leaf .literal (w ++ rest) = none := by
  refine Scanner.leaf_eq_none fun w' rest' h => ?_
  obtain ⟨hw', heq, hends'⟩ := number?_eq_some_iff.mp h
  obtain ⟨rfl, _⟩ := word_unique hw hw'.all_isSymbolChar hends hends' heq
  exact hnumber hw'

theorem boolean_leaf_eq_none {w rest : Text} (hw : ∀ c ∈ w, isSymbolChar c) (hends : endsWord rest)
    (hboolean : ¬ IsBoolean w) : booleanWord.leaf .literal (w ++ rest) = none := by
  refine Scanner.leaf_eq_none fun w' rest' h => ?_
  obtain ⟨hw', heq, hends'⟩ := boolean?_eq_some_iff.mp h
  obtain ⟨rfl, _⟩ := word_unique hw hw'.all_isSymbolChar hends hends' heq
  exact hboolean hw'

theorem string_leaf_eq_none {c : Char} {t : Text} (h : c ≠ '"') :
    stringWord.leaf .literal (c :: t) = none := by
  refine Scanner.leaf_eq_none fun w rest hscan => h ?_
  obtain ⟨body, _, rfl, heq⟩ := string?_eq_some_iff.mp hscan
  exact (List.cons.inj heq).1

/-- The leaves at the front of a text are the lexemes that end there. Of several forms that begin
alike, the first in order is taken, and no other one ends at the same place. -/
theorem leafAt_eq_some_iff {s : Text} {node : Node} {rest : Text} :
    leafAt s = some (node, rest) ↔
      ∃ l, OneLexeme node l ∧ s = l.text ++ rest ∧ (l.isWord → endsWord rest) := by
  constructor
  · intro h
    simp only [leafAt, Option.or_eq_some_iff] at h
    rcases h with h | ⟨_, h | ⟨hnumber, h | ⟨_, h | ⟨hboolean, h⟩⟩⟩⟩
    · obtain ⟨name, hname, rfl, rfl, hends⟩ := spreadAt_eq_some_iff.mp h
      exact ⟨_, .spread hname, rfl, fun _ => hends⟩
    · obtain ⟨w, hw, rfl⟩ := Scanner.leaf_eq_some_iff.mp h
      obtain ⟨c, r, rfl⟩ := List.exists_cons_of_ne_nil (numberWord.nonempty hw)
      obtain ⟨hword, hsplit, hends⟩ := number?_eq_some_iff.mp hw
      exact ⟨_, .number hword, hsplit, fun _ => hends⟩
    · obtain ⟨w, hw, rfl⟩ := Scanner.leaf_eq_some_iff.mp h
      obtain ⟨body, hbody, rfl, hsplit⟩ := string?_eq_some_iff.mp hw
      exact ⟨_, .string hbody, hsplit, fun hword => absurd hword (by simp [Lexeme.isWord])⟩
    · obtain ⟨w, hw, rfl⟩ := Scanner.leaf_eq_some_iff.mp h
      obtain ⟨c, r, rfl⟩ := List.exists_cons_of_ne_nil (booleanWord.nonempty hw)
      obtain ⟨hword, hsplit, hends⟩ := boolean?_eq_some_iff.mp hw
      exact ⟨_, .boolean hword, hsplit, fun _ => hends⟩
    · obtain ⟨w, hw, rfl⟩ := Scanner.leaf_eq_some_iff.mp h
      obtain ⟨c, r, rfl⟩ := List.exists_cons_of_ne_nil (symbolWord.nonempty hw)
      obtain ⟨hword, hsplit, hends⟩ := symbol?_eq_some_iff.mp hw
      refine ⟨_, .identifier hword ?_ ?_, hsplit, fun _ => hends⟩
      · intro hn
        rw [Scanner.leaf, show numberWord.scan s = _ from
          number?_eq_some_iff.mpr ⟨hn, hsplit, hends⟩] at hnumber
        cases hnumber
      · intro hb
        rw [Scanner.leaf, show booleanWord.scan s = _ from
          boolean?_eq_some_iff.mpr ⟨hb, hsplit, hends⟩] at hboolean
        cases hboolean
  · rintro ⟨l, hone, rfl, hends⟩
    have hall := hone.all_isSymbolChar
    cases hone with
    | @number c r h =>
      have hscan : numberWord.leaf .literal (c :: r ++ rest) = some (.literal (c :: r), rest) :=
        Scanner.leaf_eq_some_iff.mpr ⟨_, number?_eq_some_iff.mpr ⟨h, rfl, hends rfl⟩, rfl⟩
      simp only [leafAt, Lexeme.text, hscan]
      rw [List.cons_append, spreadAt_eq_none h.head_ne.1]
      rfl
    | @boolean c r h =>
      have hscan : booleanWord.leaf .literal (c :: r ++ rest) = some (.literal (c :: r), rest) :=
        Scanner.leaf_eq_some_iff.mpr ⟨_, boolean?_eq_some_iff.mpr ⟨h, rfl, hends rfl⟩, rfl⟩
      have hc : c ≠ '.' ∧ c ≠ '"' := by
        rcases h with h | h <;> rw [(List.cons.inj h).1] <;> decide
      have hnumber : numberWord.leaf .literal (c :: r ++ rest) = none :=
        number_leaf_eq_none (hall rfl) (hends rfl) h.not_isNumber
      simp only [leafAt, Lexeme.text, hscan, hnumber]
      rw [List.cons_append, spreadAt_eq_none hc.1, string_leaf_eq_none hc.2]
      rfl
    | @string body h =>
      have hscan : stringWord.leaf .literal (quoted body ++ rest) = some (.literal (quoted body), rest) :=
        Scanner.leaf_eq_some_iff.mpr ⟨_, string?_eq_some_iff.mpr ⟨body, h, rfl, rfl⟩, rfl⟩
      have hnumber : numberWord.leaf .literal (quoted body ++ rest) = none := by
        refine Scanner.leaf_eq_none fun w rest' hw => ?_
        have hw' : number? (quoted body ++ rest) = some (w, rest') := hw
        obtain ⟨c, r, rfl⟩ := List.exists_cons_of_ne_nil (numberWord.nonempty hw)
        obtain ⟨hword, heq, _⟩ := number?_eq_some_iff.mp hw'
        exact hword.head_ne.2.2.2 (List.cons.inj heq).1.symm
      simp only [leafAt, Lexeme.text, hscan, hnumber]
      rw [quoted, List.cons_append, spreadAt_eq_none (by decide)]
      rfl
    | @identifier c r h hnumber hboolean =>
      have hscan : symbolWord.leaf .identifier (c :: r ++ rest) = some (.identifier (c :: r), rest) :=
        Scanner.leaf_eq_some_iff.mpr ⟨_, symbol?_eq_some_iff.mpr ⟨h, rfl, hends rfl⟩, rfl⟩
      have hc : c ≠ '.' ∧ c ≠ '"' := by
        obtain ⟨d, t, hd, _, heq⟩ := h
        rw [(List.cons.inj heq).1]
        constructor <;> rintro rfl <;> exact absurd hd (by decide)
      have hnumber' : numberWord.leaf .literal (c :: r ++ rest) = none :=
        number_leaf_eq_none (hall rfl) (hends rfl) hnumber
      have hboolean' : booleanWord.leaf .literal (c :: r ++ rest) = none :=
        boolean_leaf_eq_none (hall rfl) (hends rfl) hboolean
      simp only [leafAt, Lexeme.text, hscan, hnumber', hboolean']
      rw [List.cons_append, spreadAt_eq_none hc.1, string_leaf_eq_none hc.2]
      rfl
    | spread h =>
      have hscan := spreadAt_eq_some_iff.mpr ⟨_, h, rfl, rfl, hends rfl⟩
      simp only [leafAt, Lexeme.text, List.cons_append, hscan, Option.some_or]

/-- The characters that no leaf begins with. -/
def isMark (c : Char) : Bool := c ∈ ['\'', '(', ')', '\x7b', '\x7d']

theorem OneLexeme.head_not_mark {node : Node} {l : Lexeme} (h : OneLexeme node l) :
    ∃ c t, l.text = c :: t ∧ isMark c = false ∧ isSeparator c = false ∧ c ≠ ';' := by
  have hword : ∀ {c : Char}, isSymbolChar c → isMark c = false ∧ isSeparator c = false ∧ c ≠ ';' := by
    intro c hc
    refine ⟨?_, ?_, ?_⟩
    · rw [Bool.eq_false_iff]
      intro hmark
      simp only [isMark, List.mem_cons, List.not_mem_nil, or_false, decide_eq_true_eq] at hmark
      rcases hmark with rfl | rfl | rfl | rfl | rfl <;> exact absurd hc (by decide)
    · rw [Bool.eq_false_iff]
      intro hseparator
      simp only [isSeparator, List.mem_cons, List.not_mem_nil, or_false, decide_eq_true_eq] at hseparator
      rcases hseparator with rfl | rfl | rfl | rfl | rfl <;> exact absurd hc (by decide)
    · rintro rfl
      exact absurd hc (by decide)
  cases l with
  | mark c => cases h
  | string body => exact ⟨'"', body ++ ['"'], rfl, by decide⟩
  | word c r => exact ⟨c, r, rfl, hword (h.all_isSymbolChar rfl c (List.mem_cons_self ..))⟩

theorem leafAt_of_mark {c : Char} {t : Text} (h : isMark c) : leafAt (c :: t) = none := by
  rw [Option.eq_none_iff_forall_ne_some]
  rintro ⟨node, rest⟩ hleaf
  obtain ⟨l, hone, heq, _⟩ := leafAt_eq_some_iff.mp hleaf
  obtain ⟨d, r, htext, hd, _⟩ := hone.head_not_mark
  rw [htext] at heq
  rw [(List.cons.inj heq).1, hd] at h
  cases h

/-! ## Expressions -/

theorem found?_group_eq (form : Expected) (kind : Kind) (opening closing : Char) (s : Text)
    (a : Attempts) :
    (group form kind opening closing s a).found? =
      (group form kind opening closing s (.start s)).found? := by
  refine found?_group_congr (fun t _ a b => ?_) form kind closing a _
  rw [read_row_eq_readRow, read_row_eq_readRow]

theorem readOne_eq (s : Text) :
    readOne s = (quote s (.start s)).found?.or
      ((spreadAt s).or ((group .list .list '(' ')' s (.start s)).found?.or
        ((group .block .block '\x7b' '\x7d' s (.start s)).found?.or
        ((numberWord.leaf .literal s).or <| (stringWord.leaf .literal s).or <|
          (booleanWord.leaf .literal s).or <| symbolWord.leaf .identifier s)))) :=
  found?_expression (found?_group_eq _ _ _ _ s) (found?_group_eq _ _ _ _ s) _

/-- The alternatives that are leaves, where no leaf begins. -/
theorem leaves_of_mark {c : Char} {t : Text} (h : isMark c) :
    spreadAt (c :: t) = none ∧ ((numberWord.leaf .literal (c :: t)).or <|
      (stringWord.leaf .literal (c :: t)).or <| (booleanWord.leaf .literal (c :: t)).or <|
        symbolWord.leaf .identifier (c :: t)) = none := by
  have hleaf := leafAt_of_mark (t := t) h
  rw [leafAt, Option.or_eq_none_iff] at hleaf
  exact hleaf

theorem readOne_quote (t : Text) :
    readOne ('\'' :: t) =
      (readOne (skipTrivia t)).map fun (node, rest) => (.composite .quote [node], rest) := by
  obtain ⟨hspread, hleaves⟩ := leaves_of_mark (c := '\'') (t := t) rfl
  rw [readOne_eq, hspread, hleaves, found?_quote_cons, found?_expression_eq_readOne,
    found?_group_of_ne (by simp), found?_group_of_ne (by simp)]
  simp only [Option.or_none]

theorem readOne_group {kind : Kind} {opening closing : Char} (hkind : Brackets kind opening closing)
    (t : Text) : readOne (opening :: t) = closeRow kind closing (readRow (skipTrivia t)) := by
  have hmark : isMark opening := by cases hkind <;> rfl
  obtain ⟨hspread, hleaves⟩ := leaves_of_mark (t := t) hmark
  rw [readOne_eq, hspread, hleaves]
  cases hkind with
  | list =>
    rw [found?_quote_of_ne (by simp), found?_group_cons, read_row_eq_readRow,
      found?_group_of_ne (by simp)]
    simp only [Option.none_or, Option.or_none]
  | block =>
    rw [found?_quote_of_ne (by simp), found?_group_of_ne (by simp), found?_group_cons,
      read_row_eq_readRow]
    simp only [Option.none_or, Option.or_none]

theorem readOne_of_ne {s : Text} (hquote : ∀ t, s ≠ '\'' :: t) (hlist : ∀ t, s ≠ '(' :: t)
    (hblock : ∀ t, s ≠ '\x7b' :: t) : readOne s = leafAt s := by
  rw [readOne_eq, found?_quote_of_ne hquote, found?_group_of_ne hlist, found?_group_of_ne hblock]
  simp only [Option.none_or, leafAt]

theorem readOne_lexeme {node : Node} {l : Lexeme} {rest : Text} (h : OneLexeme node l)
    (hends : l.isWord → endsWord rest) : readOne (l.text ++ rest) = some (node, rest) := by
  obtain ⟨c, t, htext, hmark, _⟩ := h.head_not_mark
  rw [readOne_of_ne, leafAt_eq_some_iff.mpr ⟨l, h, rfl, hends⟩]
  all_goals
    intro v hv
    rw [htext] at hv
    rw [(List.cons.inj hv).1] at hmark
    exact absurd hmark (by decide)

theorem readOne_nil : readOne [] = none := by
  rw [readOne_of_ne (by simp) (by simp) (by simp)]
  rfl

theorem readOne_of_closing {c : Char} {t : Text} (h : c = ')' ∨ c = '\x7d') :
    readOne (c :: t) = none := by
  rw [readOne_of_ne, leafAt_of_mark]
  · rcases h with rfl | rfl <;> rfl
  · rcases h with rfl | rfl <;> simp
  · rcases h with rfl | rfl <;> simp
  · rcases h with rfl | rfl <;> simp

end TokenCorpus.Script
