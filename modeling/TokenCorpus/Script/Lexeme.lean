import TokenCorpus.Text

/-!
The words of a script.

Each scanner looks at the front of a text and either splits it into one word and what follows, or
refuses. A word is as long as it can be: where a number or a boolean runs on into symbol characters
it is no such word.
-/

namespace TokenCorpus.Script

/-- The characters that may begin a symbol. -/
def isSymbolStart (c : Char) : Bool :=
  c.isAlpha || c ∈ "_+-*/<>=!?%&|^~$:@#".toList

/-- The characters that a symbol may go on with. -/
def isSymbolChar (c : Char) : Bool :=
  isSymbolStart c || c.isDigit || c == '.'

/-- The characters that separate words. -/
def isSeparator (c : Char) : Bool :=
  c ∈ [' ', '\t', '\r', '\n', ',']

/-- The text after the separators and comments at its front. A comment reaches from a semicolon to
the end of its line. -/
def skipTrivia (s : Text) : Text :=
  match s with
  | [] => []
  | c :: r =>
    if isSeparator c then skipTrivia r
    else if c = ';' then skipTrivia (r.dropWhile (· ≠ '\n'))
    else s
termination_by s.length
decreasing_by
  · simp
  · have := (List.dropWhile_suffix (l := r) (· ≠ '\n')).length_le
    simp only [List.length_cons]
    omega

theorem length_skipTrivia_le (s : Text) : (skipTrivia s).length ≤ s.length := by
  fun_induction skipTrivia s with
  | case1 => simp
  | case2 c r _ ih => simp only [List.length_cons]; omega
  | case3 r _ ih =>
    have := (List.dropWhile_suffix (l := r) (· ≠ '\n')).length_le
    simp only [List.length_cons]
    omega
  | case4 => simp

/-- Whether a word may end before `rest`: no symbol character follows. -/
def endsWord (rest : Text) : Bool := !(rest.head?.any isSymbolChar)

/-- The longest run of characters with the property, and the text after it. -/
def run (p : Char → Bool) (s : Text) : Text × Text := (s.takeWhile p, s.dropWhile p)

/-- A point with at least one digit after it. -/
def fraction (s : Text) : Text × Text :=
  match s with
  | '.' :: r => if (r.takeWhile Char.isDigit).isEmpty then ([], s)
    else ('.' :: r.takeWhile Char.isDigit, r.dropWhile Char.isDigit)
  | _ => ([], s)

/-- Digits with an optional fraction. -/
def unsigned? (s : Text) : Option (Text × Text) :=
  let (whole, afterWhole) := run Char.isDigit s
  let (part, rest) := fraction afterWhole
  if whole.isEmpty || !endsWord rest then none else some (whole ++ part, rest)

/-- A decimal number with an optional minus sign. -/
def number? (s : Text) : Option (Text × Text) :=
  match s with
  | '-' :: r => (unsigned? r).map fun (word, rest) => ('-' :: word, rest)
  | _ => unsigned? s

/-- What follows the opening quote of a string, up to its closing quote. A backslash takes the next
character with it. -/
def stringTail? : Text → Option (Text × Text)
  | [] => none
  | '"' :: r => some (['"'], r)
  | '\\' :: [] => none
  | '\\' :: c :: r => (stringTail? r).map fun (word, rest) => ('\\' :: c :: word, rest)
  | c :: r => (stringTail? r).map fun (word, rest) => (c :: word, rest)

/-- A quoted string. -/
def string? (s : Text) : Option (Text × Text) :=
  match s with
  | '"' :: r => (stringTail? r).map fun (word, rest) => ('"' :: word, rest)
  | _ => none

/-- The text after `word`, if it begins with it. -/
def after? (word s : Text) : Option Text :=
  if word.isPrefixOf s then some (s.drop word.length) else none

/-- The word `name`, standing alone. -/
def keyword? (name : Text) (s : Text) : Option (Text × Text) :=
  (after? name s).bind fun rest => if endsWord rest then some (name, rest) else none

/-- `true` or `false`. -/
def boolean? (s : Text) : Option (Text × Text) :=
  (keyword? "true".toList s).or (keyword? "false".toList s)

/-- A symbol. -/
def symbol? (s : Text) : Option (Text × Text) :=
  match s with
  | c :: r => if isSymbolStart c then some (c :: r.takeWhile isSymbolChar, r.dropWhile isSymbolChar)
    else none
  | [] => none

/-! ## Nothing is lost

Every scanner splits the text: the word is not empty, and word and rest together are the text. -/

/-- A scanner that splits off one word. -/
structure Scanner where
  scan : Text → Option (Text × Text)
  nonempty : ∀ {s word rest}, scan s = some (word, rest) → word ≠ []
  split : ∀ {s word rest}, scan s = some (word, rest) → s = word ++ rest

theorem Scanner.length_lt (k : Scanner) {s word rest : Text} (h : k.scan s = some (word, rest)) :
    rest.length < s.length := by
  have := List.length_pos_iff.mpr (k.nonempty h)
  rw [k.split h, List.length_append]
  omega

theorem fraction_split (s : Text) : (fraction s).1 ++ (fraction s).2 = s := by
  unfold fraction
  split
  · split <;> simp
  · simp

theorem unsigned?_split {s word rest : Text} (h : unsigned? s = some (word, rest)) :
    word ≠ [] ∧ s = word ++ rest := by
  simp only [unsigned?, run, Option.ite_none_left_eq_some, Option.some.injEq, Prod.mk.injEq,
    Bool.or_eq_true, not_or, List.isEmpty_iff] at h
  obtain ⟨⟨hwhole, _⟩, rfl, rfl⟩ := h
  refine ⟨by simp [hwhole], ?_⟩
  rw [List.append_assoc, fraction_split, List.takeWhile_append_dropWhile]

theorem stringTail?_split {s word rest : Text} (h : stringTail? s = some (word, rest)) :
    s = word ++ rest := by
  fun_induction stringTail? s generalizing word rest with
  | case1 => simp at h
  | case2 r => simp only [Option.some.injEq, Prod.mk.injEq] at h; simp [← h.1, ← h.2]
  | case3 => simp at h
  | case4 c r ih =>
    simp only [Option.map_eq_some_iff] at h
    obtain ⟨⟨w, t⟩, hw, heq⟩ := h
    simp only [Prod.mk.injEq] at heq
    simp [← heq.1, ← heq.2, ih hw]
  | case5 c r _ _ _ ih =>
    simp only [Option.map_eq_some_iff] at h
    obtain ⟨⟨w, t⟩, hw, heq⟩ := h
    simp only [Prod.mk.injEq] at heq
    simp [← heq.1, ← heq.2, ih hw]

theorem keyword?_split {name s word rest : Text} (h : keyword? name s = some (word, rest)) :
    word = name ∧ s = word ++ rest := by
  simp only [keyword?, after?, Option.bind_eq_some_iff] at h
  obtain ⟨t, ht, h⟩ := h
  split at ht
  · next hpre =>
    split at h
    · simp only [Option.some.injEq, Prod.mk.injEq] at h ht
      obtain ⟨rfl, rfl⟩ := h
      obtain ⟨u, hu⟩ := List.isPrefixOf_iff_prefix.mp hpre
      refine ⟨rfl, ?_⟩
      rw [← ht, ← hu]
      simp
    · simp at h
  · simp at ht

/-- The scanner of numbers. -/
def numberWord : Scanner where
  scan := number?
  nonempty h := by
    unfold number? at h
    split at h
    · simp only [Option.map_eq_some_iff, Prod.mk.injEq] at h
      obtain ⟨_, _, h, _⟩ := h
      simp [← h]
    · exact (unsigned?_split h).1
  split h := by
    unfold number? at h
    split at h
    · simp only [Option.map_eq_some_iff] at h
      obtain ⟨⟨w, t⟩, hw, heq⟩ := h
      simp only [Prod.mk.injEq] at heq
      simp [← heq.1, ← heq.2, (unsigned?_split hw).2]
    · exact (unsigned?_split h).2

/-- The scanner of strings. -/
def stringWord : Scanner where
  scan := string?
  nonempty h := by
    unfold string? at h
    split at h
    · simp only [Option.map_eq_some_iff, Prod.mk.injEq] at h
      obtain ⟨_, _, h, _⟩ := h
      simp [← h]
    · simp at h
  split h := by
    unfold string? at h
    split at h
    · simp only [Option.map_eq_some_iff] at h
      obtain ⟨⟨w, t⟩, hw, heq⟩ := h
      simp only [Prod.mk.injEq] at heq
      simp [← heq.1, ← heq.2, stringTail?_split hw]
    · simp at h

/-- The scanner of booleans. -/
def booleanWord : Scanner where
  scan := boolean?
  nonempty h := by
    simp only [boolean?, Option.or_eq_some_iff] at h
    rcases h with h | ⟨_, h⟩
    · rw [(keyword?_split h).1]; decide
    · rw [(keyword?_split h).1]; decide
  split h := by
    simp only [boolean?, Option.or_eq_some_iff] at h
    rcases h with h | ⟨_, h⟩
    · exact (keyword?_split h).2
    · exact (keyword?_split h).2

/-- The scanner of symbols. -/
def symbolWord : Scanner where
  scan := symbol?
  nonempty h := by
    unfold symbol? at h
    split at h
    · split at h
      · simp only [Option.some.injEq, Prod.mk.injEq] at h
        simp [← h.1]
      · simp at h
    · simp at h
  split h := by
    unfold symbol? at h
    split at h
    · split at h
      · simp only [Option.some.injEq, Prod.mk.injEq] at h
        simp [← h.1, ← h.2]
      · simp at h
    · simp at h

end TokenCorpus.Script
