import Mathlib.Data.List.TakeWhile
import TokenCorpus.Text.Blank

/-!
The words of a text.

A text falls into words at every blank, so words of a text put together with spaces are the words of
its parts.
-/

namespace TokenCorpus.Text

theorem words_of_dropWhile_nil {t : Text} (h : t.dropWhile isBlank = []) : words t = [] := by
  rw [words]
  split
  · rfl
  · next c r hcons => simp [h] at hcons

theorem words_of_dropWhile_cons {t r : Text} {c : Char} (h : t.dropWhile isBlank = c :: r) :
    words t = (c :: r.takeWhile (!isBlank ·)) :: words (r.dropWhile (!isBlank ·)) := by
  rw [words]
  split
  · next hnil => simp [h] at hnil
  · next c' r' hcons =>
    rw [h] at hcons
    cases hcons
    rfl

/-- Texts that differ only in blanks at the front have the same words. -/
theorem words_congr {s t : Text} (h : s.dropWhile isBlank = t.dropWhile isBlank) :
    words s = words t := by
  cases ht : t.dropWhile isBlank with
  | nil => rw [words_of_dropWhile_nil ht, words_of_dropWhile_nil (h.trans ht)]
  | cons c r => rw [words_of_dropWhile_cons ht, words_of_dropWhile_cons (h.trans ht)]

theorem takeWhile_append_of_stop {p : Char → Bool} (r t : Text) {b : Char} (hb : p b = false) :
    (r ++ b :: t).takeWhile p = r.takeWhile p := by
  induction r with
  | nil => simp [hb]
  | cons c r ih => cases hc : p c <;> simp [hc, ih]

theorem dropWhile_append_of_stop {p : Char → Bool} (r t : Text) {b : Char} (hb : p b = false) :
    (r ++ b :: t).dropWhile p = r.dropWhile p ++ b :: t := by
  induction r with
  | nil => simp [hb]
  | cons c r ih => cases hc : p c <;> simp [hc, ih]

/-- A text falls into words at a blank. -/
theorem words_append_blank (s t : Text) {b : Char} (hb : isBlank b) :
    words (s ++ b :: t) = words s ++ words t := by
  induction hn : s.length using Nat.strongRecOn generalizing s with
  | ind n ih =>
    cases hs : s.dropWhile isBlank with
    | nil =>
      have hall : ∀ c ∈ s, isBlank c := List.dropWhile_eq_nil_iff.mp hs
      rw [words_of_dropWhile_nil hs, List.nil_append]
      apply words_congr
      rw [List.dropWhile_append_of_pos hall, List.dropWhile_cons_of_pos hb]
    | cons c r =>
      have hstop : (!isBlank b) = false := by simp [hb]
      have hsome : (s ++ b :: t).dropWhile isBlank = c :: (r ++ b :: t) := by
        rw [List.dropWhile_append, hs]
        rfl
      have hshorter : (r.dropWhile (!isBlank ·)).length < n := by
        have hdrop := (List.dropWhile_suffix (l := s) isBlank).length_le
        have hrest := (List.dropWhile_suffix (l := r) (!isBlank ·)).length_le
        rw [hs, List.length_cons] at hdrop
        omega
      rw [words_of_dropWhile_cons hsome, words_of_dropWhile_cons hs,
        takeWhile_append_of_stop r t hstop, dropWhile_append_of_stop r t hstop,
        ih _ hshorter _ rfl, List.cons_append]

theorem isBlank_space : isBlank ' ' := by decide

/-- The words of texts with spaces between them are those of each text. -/
theorem words_spaced (pieces : List Text) : words (spaced pieces) = pieces.flatMap words := by
  induction pieces with
  | nil => exact words_of_dropWhile_nil rfl
  | cons piece pieces ih =>
    cases pieces with
    | nil => simp
    | cons next pieces =>
      rw [List.flatMap_cons, ← ih, ← words_append_blank piece _ isBlank_space, spaced_cons_cons]

theorem mem_spaced {pieces : List Text} {c : Char} (h : c ∈ spaced pieces) :
    c = ' ' ∨ ∃ piece ∈ pieces, c ∈ piece := by
  induction pieces with
  | nil => cases h
  | cons piece pieces ih =>
    cases pieces with
    | nil => exact Or.inr ⟨piece, List.mem_singleton.mpr rfl, by simpa using h⟩
    | cons next pieces =>
      rw [spaced_cons_cons, List.mem_append, List.mem_cons] at h
      obtain hfirst | rfl | hrest := h
      · exact Or.inr ⟨piece, List.mem_cons_self, hfirst⟩
      · exact Or.inl rfl
      · obtain rfl | ⟨piece', hpiece, hc⟩ := ih hrest
        · exact Or.inl rfl
        · exact Or.inr ⟨piece', List.mem_cons_of_mem _ hpiece, hc⟩

/-- What a word looks like: it is not empty and holds no blank. -/
def IsWord (t : Text) : Prop := t ≠ [] ∧ ∀ c ∈ t, isBlank c = false

theorem isWord_of_mem_words {t word : Text} (h : word ∈ words t) : IsWord word := by
  induction hn : t.length using Nat.strongRecOn generalizing t with
  | ind n ih =>
    cases ht : t.dropWhile isBlank with
    | nil => simp [words_of_dropWhile_nil ht] at h
    | cons c r =>
      rw [words_of_dropWhile_cons ht, List.mem_cons] at h
      obtain rfl | hlater := h
      · refine ⟨List.cons_ne_nil _ _, fun d hd => ?_⟩
        obtain rfl | hd := List.mem_cons.mp hd
        · have hhead := List.head?_dropWhile_not isBlank t
          simpa [ht] using hhead
        · simpa using List.mem_takeWhile_imp hd
      · refine ih _ ?_ hlater rfl
        have hdrop := (List.dropWhile_suffix (l := t) isBlank).length_le
        have hrest := (List.dropWhile_suffix (l := r) (!isBlank ·)).length_le
        rw [ht, List.length_cons] at hdrop
        omega

/-- A word falls into itself. -/
theorem IsWord.words_eq {t : Text} (h : IsWord t) : words t = [t] := by
  obtain ⟨hne, hchars⟩ := h
  obtain ⟨c, r, rfl⟩ := List.exists_cons_of_ne_nil hne
  have hc : isBlank c = false := hchars c List.mem_cons_self
  have hr : ∀ d ∈ r, (!isBlank d) = true := by
    intro d hd
    rw [hchars d (List.mem_cons_of_mem _ hd)]
    rfl
  have hdrop : (c :: r).dropWhile isBlank = c :: r := List.dropWhile_cons_of_neg (by simp [hc])
  rw [words_of_dropWhile_cons hdrop, List.takeWhile_eq_self_iff.mpr hr,
    List.dropWhile_eq_nil_iff.mpr hr, words_of_dropWhile_nil rfl]

theorem words_spaced_of_isWord {pieces : List Text} (h : ∀ piece ∈ pieces, IsWord piece) :
    words (spaced pieces) = pieces := by
  rw [words_spaced]
  induction pieces with
  | nil => rfl
  | cons piece pieces ih =>
    rw [List.flatMap_cons, (h piece List.mem_cons_self).words_eq, List.singleton_append,
      ih fun piece hmem => h piece (List.mem_cons_of_mem _ hmem)]

theorem count_dropWhile {p : Char → Bool} {b : Char} (hb : p b = false) (t : Text) :
    (t.dropWhile p).count b = t.count b := by
  have hdropped : (t.takeWhile p).count b = 0 := by
    refine List.count_eq_zero.mpr fun hmem => ?_
    have hp := List.mem_takeWhile_imp hmem
    rw [hb] at hp
    cases hp
  have hcut := congrArg (List.count b) (List.takeWhile_append_dropWhile (p := p) (l := t))
  rw [List.count_append, hdropped, Nat.zero_add] at hcut
  exact hcut

/-- Only blanks are lost when a text falls into words. -/
theorem count_flatten_words {b : Char} (hb : isBlank b = false) (t : Text) :
    (words t).flatten.count b = t.count b := by
  induction hn : t.length using Nat.strongRecOn generalizing t with
  | ind n ih =>
    rw [← count_dropWhile hb t]
    cases ht : t.dropWhile isBlank with
    | nil => rw [words_of_dropWhile_nil ht]; rfl
    | cons c r =>
      have hshorter : (r.dropWhile (!isBlank ·)).length < n := by
        have hdrop := (List.dropWhile_suffix (l := t) isBlank).length_le
        have hrest := (List.dropWhile_suffix (l := r) (!isBlank ·)).length_le
        rw [ht, List.length_cons] at hdrop
        omega
      have hcut : c :: r = (c :: r.takeWhile (!isBlank ·)) ++ r.dropWhile (!isBlank ·) := by
        rw [List.cons_append, List.takeWhile_append_dropWhile]
      rw [words_of_dropWhile_cons ht, List.flatten_cons, List.count_append, ih _ hshorter _ rfl,
        hcut, List.count_append]

/-- Only spaces are gained when texts are put together. -/
theorem count_spaced {b : Char} (hb : b ≠ ' ') (pieces : List Text) :
    (spaced pieces).count b = pieces.flatten.count b := by
  induction pieces with
  | nil => rfl
  | cons piece pieces ih =>
    cases pieces with
    | nil => simp
    | cons next pieces =>
      rw [spaced_cons_cons, List.count_append, List.count_cons_of_ne hb.symm, ih, ← List.count_append,
        ← List.flatten_cons]

/-! ## Ends -/

/-- No blank at either end. -/
structure Trimmed (t : Text) : Prop where
  head : t.head?.any isBlank = false
  last : t.getLast?.any isBlank = false

theorem Trimmed.of_forall {t : Text} (h : ∀ c ∈ t, isBlank c = false) : t.Trimmed := by
  refine ⟨?_, ?_⟩
  · rw [Option.any_eq_false]
    intro c hc
    rw [h c (List.mem_of_head? hc)]
  · rw [Option.any_eq_false]
    intro c hc
    rw [h c (List.mem_of_getLast? hc)]

/-- Texts in a row begin as the first of them does, and end as the last. -/
theorem trimmed_spaced {pieces : List Text} (h : ∀ piece ∈ pieces, piece ≠ [] ∧ piece.Trimmed) :
    (spaced pieces).Trimmed ∧ (pieces ≠ [] → spaced pieces ≠ []) := by
  induction pieces with
  | nil => exact ⟨⟨rfl, rfl⟩, fun hne => absurd rfl hne⟩
  | cons piece pieces ih =>
    obtain ⟨hne, htrimmed⟩ := h piece List.mem_cons_self
    cases pieces with
    | nil =>
      rw [spaced_singleton]
      exact ⟨htrimmed, fun _ => hne⟩
    | cons next pieces =>
      obtain ⟨hrest, hsome⟩ := ih fun piece hmem => h piece (List.mem_cons_of_mem _ hmem)
      obtain ⟨c, r, rfl⟩ := List.exists_cons_of_ne_nil hne
      obtain ⟨d, t, hd⟩ := List.exists_cons_of_ne_nil (hsome (List.cons_ne_nil _ _))
      have hlast : ((c :: r) ++ ' ' :: spaced (next :: pieces)).getLast? =
          (spaced (next :: pieces)).getLast? := by
        rw [hd, List.getLast?_append, List.getLast?_cons_cons, List.getLast?_cons, Option.some_or]
      rw [spaced_cons_cons]
      exact ⟨⟨htrimmed.head, hlast ▸ hrest.last⟩, fun _ => by simp⟩

end TokenCorpus.Text
