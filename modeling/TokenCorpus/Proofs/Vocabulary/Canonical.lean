import Mathlib.Data.List.Dedup
import Mathlib.Data.List.Sort
import TokenCorpus.Proofs.Text.Bytes
import TokenCorpus.Proofs.Vocabulary.Counts

/-!
Counts are multisets, and their vocabularies are canonical.

Among the entries of counts no token comes twice, and the entry of a token holds the number of times
it was added. A vocabulary puts some of these entries in a strict order, so it depends only on how
often each token was added: not on the order of additions, nor on the order in which the counts are
gone through.
-/

namespace TokenCorpus

/-! ## Entries -/

namespace TokenCounts

/-- The different tokens, in the order of first sight. -/
def tokens (counts : TokenCounts) : List Text := counts.entries.map TokenCount.token

theorem tokens_bump (token : Text) (entries : List TokenCount) :
    (bump token entries).map TokenCount.token =
      if token ∈ entries.map TokenCount.token then entries.map TokenCount.token
      else entries.map TokenCount.token ++ [token] := by
  induction entries with
  | nil => simp [bump]
  | cons e entries ih =>
    rw [bump]
    split
    · next htoken => simp [htoken]
    · next htoken =>
      have hlater : token ∈ (e :: entries).map TokenCount.token ↔
          token ∈ entries.map TokenCount.token := by
        rw [List.map_cons, List.mem_cons, or_iff_right (Ne.symm htoken)]
      rw [List.map_cons, ih]
      simp only [hlater]
      split <;> rfl

theorem tokens_add (counts : TokenCounts) (token : Text) :
    (counts.add token).tokens =
      if token ∈ counts.tokens then counts.tokens else counts.tokens ++ [token] :=
  tokens_bump token counts.entries

theorem mem_tokens_add {counts : TokenCounts} {token other : Text} :
    other ∈ (counts.add token).tokens ↔ other ∈ counts.tokens ∨ other = token := by
  rw [tokens_add]
  split
  · next hmem =>
    refine ⟨Or.inl, ?_⟩
    rintro (h | rfl)
    · exact h
    · exact hmem
  · rw [List.mem_append, List.mem_singleton]

theorem mem_tokens_addAll {counts : TokenCounts} {tokens : List Text} {token : Text} :
    token ∈ (counts.addAll tokens).tokens ↔ token ∈ counts.tokens ∨ token ∈ tokens := by
  induction tokens generalizing counts with
  | nil => simp [addAll]
  | cons first tokens ih =>
    have hrest : counts.addAll (first :: tokens) = (counts.add first).addAll tokens := rfl
    rw [hrest, ih, mem_tokens_add, List.mem_cons, or_assoc]

theorem nodup_tokens_add {counts : TokenCounts} (h : counts.tokens.Nodup) (token : Text) :
    (counts.add token).tokens.Nodup := by
  rw [tokens_add]
  split
  · exact h
  · next hnew =>
    rw [List.nodup_append]
    refine ⟨h, List.nodup_singleton token, ?_⟩
    rintro other hother _ hmem rfl
    exact hnew (List.mem_singleton.mp hmem ▸ hother)

theorem nodup_tokens_addAll {counts : TokenCounts} (h : counts.tokens.Nodup) (tokens : List Text) :
    (counts.addAll tokens).tokens.Nodup := by
  induction tokens generalizing counts with
  | nil => exact h
  | cons first tokens ih => exact ih (nodup_tokens_add h first)

/-- Where no token comes twice, the entry of a token is the one with its count. -/
theorem mem_entries_iff {counts : TokenCounts} (h : counts.tokens.Nodup) {e : TokenCount} :
    e ∈ counts.entries ↔ e.token ∈ counts.tokens ∧ counts.get e.token = e.count := by
  have hget : ∀ e ∈ counts.entries, counts.get e.token = e.count := by
    intro e hmem
    obtain ⟨found, hfound⟩ : ∃ found, counts.entries.find? (·.token = e.token) = some found := by
      rw [← Option.isSome_iff_exists, List.find?_isSome]
      exact ⟨e, hmem, by simp⟩
    have htoken : found.token = e.token := by simpa using List.find?_some hfound
    have heq : found = e :=
      List.inj_on_of_nodup_map h (List.mem_of_find?_eq_some hfound) hmem htoken
    rw [get, hfound, heq]
    rfl
  constructor
  · intro hmem
    exact ⟨List.mem_map_of_mem hmem, hget e hmem⟩
  · rintro ⟨hmem, hcount⟩
    obtain ⟨found, hfound, htoken⟩ := List.mem_map.mp hmem
    have heq : found = e := by
      cases found
      cases e
      simp only at htoken hcount
      rw [← htoken, hget _ hfound] at hcount
      simp only at hcount
      rw [htoken, hcount]
    exact heq ▸ hfound

/-! ## Totals -/

theorem total_add (counts : TokenCounts) (token : Text) :
    (counts.add token).total = counts.total + 1 := by
  have hbump : ∀ entries : List TokenCount,
      (bump token entries).foldr (fun e n => e.count + n) 0 =
        entries.foldr (fun e n => e.count + n) 0 + 1 := by
    intro entries
    induction entries with
    | nil => rfl
    | cons e entries ih =>
      rw [bump]
      split
      · simp only [List.foldr_cons]
        omega
      · simp only [List.foldr_cons, ih]
        omega
  exact hbump counts.entries

theorem total_addAll (counts : TokenCounts) (tokens : List Text) :
    (counts.addAll tokens).total = counts.total + tokens.length := by
  induction tokens generalizing counts with
  | nil => rfl
  | cons first tokens ih =>
    have hrest : counts.addAll (first :: tokens) = (counts.add first).addAll tokens := rfl
    rw [hrest, ih, total_add, List.length_cons]
    omega

section

variable (tokens : List Text)

theorem nodup_tokens_empty_addAll : (empty.addAll tokens).tokens.Nodup := by
  have hempty : empty.tokens.Nodup := List.nodup_nil
  exact nodup_tokens_addAll hempty tokens

theorem get_empty_addAll (token : Text) : (empty.addAll tokens).get token = tokens.count token := by
  rw [get_addAll]
  exact Nat.zero_add _

/-- The entries are the pairs of an added token and the number of times it was added. -/
theorem mem_entries_empty_addAll {e : TokenCount} :
    e ∈ (empty.addAll tokens).entries ↔ e.token ∈ tokens ∧ e.count = tokens.count e.token := by
  rw [mem_entries_iff (nodup_tokens_empty_addAll tokens), mem_tokens_addAll, get_empty_addAll,
    eq_comm]
  simp [TokenCounts.tokens, empty]

theorem distinct_empty_addAll : (empty.addAll tokens).distinct = tokens.dedup.length := by
  have hperm : (empty.addAll tokens).tokens.Perm tokens.dedup := by
    rw [List.perm_ext_iff_of_nodup (nodup_tokens_empty_addAll tokens) (List.nodup_dedup tokens)]
    intro token
    rw [mem_tokens_addAll, List.mem_dedup]
    simp [TokenCounts.tokens, empty]
  rw [← hperm.length_eq, TokenCounts.tokens, List.length_map, distinct]

end

end TokenCounts

/-! ## Order -/

namespace TokenCount

/-- An entry comes before another in a vocabulary: it has the greater count, or the same count and
the lesser bytes. -/
def Precedes (a b : TokenCount) : Prop :=
  b.count < a.count ∨ a.count = b.count ∧ a.token.bytes < b.token.bytes

instance : Std.Irrefl Precedes where
  irrefl _ h := h.elim (Nat.lt_irrefl _) fun h => List.lt_irrefl _ h.2

instance : Std.Antisymm Precedes where
  antisymm a b hab hba := by
    exfalso
    obtain hab | ⟨hcount, hab⟩ := hab <;> obtain hba | ⟨hcount', hba⟩ := hba
    · omega
    · omega
    · omega
    · exact List.lt_irrefl _ (List.lt_trans hab hba)

theorem le_iff {a b : TokenCount} :
    a.le b ↔ b.count < a.count ∨ a.count = b.count ∧ a.token.bytewiseLe b.token := by
  simp [le]

theorem le_trans {a b c : TokenCount} (hab : a.le b) (hbc : b.le c) : a.le c := by
  rw [le_iff] at hab hbc ⊢
  obtain hab | ⟨hab, hbytes⟩ := hab <;> obtain hbc | ⟨hbc, hbytes'⟩ := hbc
  · exact Or.inl (by omega)
  · exact Or.inl (by omega)
  · exact Or.inl (by omega)
  · exact Or.inr ⟨hab.trans hbc, Text.bytewiseLe_trans hbytes hbytes'⟩

theorem le_total (a b : TokenCount) : a.le b ∨ b.le a := by
  rw [le_iff, le_iff]
  obtain hlt | heq | hgt := Nat.lt_trichotomy a.count b.count
  · exact Or.inr (Or.inl hlt)
  · exact (Text.bytewiseLe_total a.token b.token).imp (fun h => Or.inr ⟨heq, h⟩)
      fun h => Or.inr ⟨heq.symm, h⟩
  · exact Or.inl (Or.inl hgt)

theorem precedes_of_le {a b : TokenCount} (h : a.le b) (hne : a.token ≠ b.token) :
    a.Precedes b :=
  (le_iff.mp h).imp_right fun h => ⟨h.1, Text.bytes_lt_of_bytewiseLe h.2 hne⟩

end TokenCount

/-! ## Vocabularies -/

namespace TokenCounts

theorem mem_vocabulary {counts : TokenCounts} {minCount : Nat} {e : TokenCount} :
    e ∈ (counts.vocabulary minCount).entries ↔ e ∈ counts.entries ∧ minCount ≤ e.count := by
  rw [vocabulary, mem_inOrder, List.mem_filter, decide_eq_true_iff]

/-- Where no token comes twice, the order of a vocabulary is strict. -/
theorem vocabulary_pairwise {counts : TokenCounts} (h : counts.tokens.Nodup) (minCount : Nat) :
    (counts.vocabulary minCount).entries.Pairwise TokenCount.Precedes := by
  have hle : (counts.vocabulary minCount).entries.Pairwise (TokenCount.le · ·) := by
    refine inOrder_pairwise ?_ TokenCount.le_total _
    exact fun _ _ _ => TokenCount.le_trans
  have hne : (counts.vocabulary minCount).entries.Pairwise fun a b => a.token ≠ b.token := by
    have hkept : (counts.entries.filter (minCount ≤ ·.count)).Pairwise
        fun a b => a.token ≠ b.token := (List.pairwise_map.mp h).filter _
    exact hkept.perm (inOrder_perm _ _).symm Ne.symm
  exact (hle.and hne).imp fun h => TokenCount.precedes_of_le h.1 h.2

/-- Vocabularies are equal if they are made of the same entries. -/
theorem vocabulary_eq_of_mem_iff {counts other : TokenCounts} (h : counts.tokens.Nodup)
    (h' : other.tokens.Nodup) (hmem : ∀ e, e ∈ counts.entries ↔ e ∈ other.entries)
    (minCount : Nat) : counts.vocabulary minCount = other.vocabulary minCount := by
  have hentries : (counts.vocabulary minCount).entries = (other.vocabulary minCount).entries :=
    (vocabulary_pairwise h minCount).eq_of_mem_iff (vocabulary_pairwise h' minCount)
      fun e => by rw [mem_vocabulary, mem_vocabulary, hmem]
  exact congrArg Vocabulary.mk hentries

end TokenCounts

/-- The entries that a vocabulary of added tokens has: one for each token added often enough, with
the number of times it was added, and each before those that it precedes. -/
structure Vocabulary.Ranks (tokens : List Text) (minCount : Nat) (entries : List TokenCount) :
    Prop where
  mem_iff : ∀ e, e ∈ entries ↔
    e.token ∈ tokens ∧ e.count = tokens.count e.token ∧ minCount ≤ e.count
  ordered : entries.Pairwise TokenCount.Precedes

namespace TokenCounts

theorem ranks_vocabulary (tokens : List Text) (minCount : Nat) :
    Vocabulary.Ranks tokens minCount ((empty.addAll tokens).vocabulary minCount).entries := by
  refine ⟨fun e => ?_, vocabulary_pairwise (nodup_tokens_empty_addAll tokens) minCount⟩
  rw [mem_vocabulary, mem_entries_empty_addAll, and_assoc]

/-- Counts tell how often each token was added, how many different ones there were and how many in
all; and a vocabulary of them is the one list of the tokens added often enough that is in strict
order. So neither the order of the additions nor that of the entries makes a difference to it. -/
theorem counts_canonical (tokens : List Text) :
    (∀ token, (empty.addAll tokens).get token = tokens.count token) ∧
    (empty.addAll tokens).distinct = tokens.dedup.length ∧
    (empty.addAll tokens).total = tokens.length ∧
    ∀ minCount,
      (∀ entries, Vocabulary.Ranks tokens minCount entries ↔
        entries = ((empty.addAll tokens).vocabulary minCount).entries) ∧
      (∀ others : List Text, others.Perm tokens →
        (empty.addAll others).vocabulary minCount = (empty.addAll tokens).vocabulary minCount) ∧
      ∀ entries : List TokenCount, entries.Perm (empty.addAll tokens).entries →
        (⟨entries⟩ : TokenCounts).vocabulary minCount = (empty.addAll tokens).vocabulary minCount := by
  have hnodup := nodup_tokens_empty_addAll tokens
  refine ⟨get_empty_addAll tokens, distinct_empty_addAll tokens, ?_, fun minCount => ⟨?_, ?_, ?_⟩⟩
  · rw [total_addAll]
    exact Nat.zero_add _
  · intro entries
    have hranks := ranks_vocabulary tokens minCount
    constructor
    · intro h
      exact h.ordered.eq_of_mem_iff hranks.ordered fun e => by rw [h.mem_iff, hranks.mem_iff]
    · rintro rfl
      exact hranks
  · intro others hperm
    refine vocabulary_eq_of_mem_iff (nodup_tokens_empty_addAll others) hnodup (fun e => ?_) minCount
    rw [mem_entries_empty_addAll, mem_entries_empty_addAll, hperm.mem_iff, hperm.count_eq]
  · intro entries hperm
    refine vocabulary_eq_of_mem_iff ?_ hnodup (fun e => hperm.mem_iff) minCount
    exact (hperm.map TokenCount.token).nodup_iff.mpr hnodup

/-- Tokens with equal counts come in the order of their bytes, whichever was added first. -/
theorem counts_canonical_ties :
    [['b'], ['c'], ['a'], ['c']].Perm [['c'], ['a'], ['c'], ['b']] ∧
      ((empty.addAll [['b'], ['c'], ['a'], ['c']]).vocabulary 1) =
        ((empty.addAll [['c'], ['a'], ['c'], ['b']]).vocabulary 1) ∧
      [TokenCount.mk 1 ['b'], ⟨2, ['c']⟩, ⟨1, ['a']⟩].Perm
        (empty.addAll [['c'], ['a'], ['c'], ['b']]).entries ∧
      (⟨[⟨1, ['b']⟩, ⟨2, ['c']⟩, ⟨1, ['a']⟩]⟩ : TokenCounts).vocabulary 1 =
        ((empty.addAll [['c'], ['a'], ['c'], ['b']]).vocabulary 1) ∧
      ((empty.addAll [['c'], ['a'], ['c'], ['b']]).vocabulary 1).entries =
        [⟨2, ['c']⟩, ⟨1, ['a']⟩, ⟨1, ['b']⟩] := by
  obtain ⟨-, -, -, hvocabulary⟩ := counts_canonical [['c'], ['a'], ['c'], ['b']]
  obtain ⟨-, hadditions, hentries⟩ := hvocabulary 1
  have hperm : [['b'], ['c'], ['a'], ['c']].Perm [['c'], ['a'], ['c'], ['b']] := by decide
  have hperm' : [TokenCount.mk 1 ['b'], ⟨2, ['c']⟩, ⟨1, ['a']⟩].Perm
      (empty.addAll [['c'], ['a'], ['c'], ['b']]).entries := by decide
  exact ⟨hperm, hadditions _ hperm, hperm', hentries _ hperm', by decide +kernel⟩

end TokenCounts

end TokenCorpus
