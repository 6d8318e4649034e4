import TokenCorpus.Vocabulary

/-!
Counting: the count of a token is the number of times it was added.
-/

namespace TokenCorpus.TokenCounts

theorem find?_bump_self (token : Text) (entries : List TokenCount) :
    ((bump token entries).find? (·.token = token)).map TokenCount.count =
      some (((entries.find? (·.token = token)).map TokenCount.count).getD 0 + 1) := by
  induction entries with
  | nil => simp [bump]
  | cons e entries ih =>
    rw [bump]
    split
    · next htoken => simp [htoken]
    · next htoken => simpa [htoken] using ih

theorem find?_bump_of_ne {token other : Text} (hne : other ≠ token) (entries : List TokenCount) :
    (bump token entries).find? (·.token = other) = entries.find? (·.token = other) := by
  induction entries with
  | nil => simp [bump, hne.symm]
  | cons e entries ih =>
    rw [bump]
    split
    · next htoken => simp [htoken, hne.symm]
    · next htoken =>
      by_cases hother : e.token = other
      · simp [hother]
      · simpa [hother] using ih

theorem get_add_self (counts : TokenCounts) (token : Text) :
    (counts.add token).get token = counts.get token + 1 := by
  rw [get, add, find?_bump_self]
  rfl

theorem get_add_of_ne (counts : TokenCounts) {token other : Text} (hne : other ≠ token) :
    (counts.add token).get other = counts.get other := by
  rw [get, add, find?_bump_of_ne hne]
  rfl

/-- Adding tokens adds to each count the number of times the token is among them. -/
theorem get_addAll (counts : TokenCounts) (tokens : List Text) (token : Text) :
    (counts.addAll tokens).get token = counts.get token + tokens.count token := by
  induction tokens generalizing counts with
  | nil => rfl
  | cons first tokens ih =>
    have hrest : (counts.addAll (first :: tokens)) = (counts.add first).addAll tokens := rfl
    rw [hrest, ih]
    by_cases heq : token = first
    · rw [heq, get_add_self, List.count_cons_self]
      omega
    · rw [get_add_of_ne counts heq, List.count_cons_of_ne (Ne.symm heq)]

end TokenCorpus.TokenCounts
