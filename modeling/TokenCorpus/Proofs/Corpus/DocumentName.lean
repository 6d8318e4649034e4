import Mathlib.Algebra.Group.Nat.Defs
import TokenCorpus.Proofs.FileSystem.Joining
import TokenCorpus.Proofs.Text.Bytes
import TokenCorpus.Corpus.DocumentName

/-!
Document names are names that a directory entry can have, unless they are too long. Different numbers
have different names, and the bytes of the names are in the order of the numbers.
-/

namespace TokenCorpus

variable {sequence width : Nat} {name : Text}

/-- A number does not fit, or it is not to be padded so far, or it has its name. -/
theorem documentName_cases (sequence width : Nat) :
    (fitsWidth sequence width = false ∧
      documentName sequence width = .error (.raised (.sequenceOverflow sequence width))) ∨
    (fitsWidth sequence width = true ∧ maxSequenceWidth < width ∧
      documentName sequence width = .error .panic) ∨
    (fitsWidth sequence width = true ∧ width ≤ maxSequenceWidth ∧
      documentName sequence width = .ok (zeroPadded sequence width ++ ".txt".toList)) := by
  rw [documentName]
  cases fitsWidth sequence width with
  | false => exact Or.inl ⟨rfl, rfl⟩
  | true =>
    rcases Nat.lt_or_ge maxSequenceWidth width with hwide | hle
    · exact Or.inr (Or.inl ⟨rfl, hwide, by simp [hwide]⟩)
    · exact Or.inr (Or.inr ⟨rfl, hle, by simp [Nat.not_lt.mpr hle]⟩)

theorem documentName_eq_ok_iff :
    documentName sequence width = .ok name ↔
      fitsWidth sequence width ∧ width ≤ maxSequenceWidth ∧
        name = zeroPadded sequence width ++ ".txt".toList := by
  obtain ⟨hfits, heq⟩ | ⟨hfits, hwide, heq⟩ | ⟨hfits, hle, heq⟩ := documentName_cases sequence width
  · simp [hfits, heq]
  · simp [heq, Nat.not_le.mpr hwide]
  · simp [hfits, heq, hle, eq_comm]

theorem documentName_eq_panic_iff :
    documentName sequence width = .error .panic ↔
      fitsWidth sequence width ∧ maxSequenceWidth < width := by
  obtain ⟨hfits, heq⟩ | ⟨hfits, hwide, heq⟩ | ⟨hfits, hle, heq⟩ := documentName_cases sequence width
  · simp [hfits, heq]
  · simp [hfits, heq, hwide]
  · simp [heq, Nat.not_lt.mpr hle]

theorem isDigit_of_mem_zeroPadded {c : Char} (h : c ∈ zeroPadded sequence width) : c.isDigit := by
  rw [zeroPadded] at h
  cases List.mem_append.mp h with
  | inl h => rw [List.eq_of_mem_replicate h]; rfl
  | inr h => exact Nat.isDigit_of_mem_toDigits (by decide) (by decide) h

theorem not_mem_documentName {c : Char} (h : documentName sequence width = .ok name)
    (hdigit : ¬ c.isDigit) (hend : c ∉ ".txt".toList) : c ∉ name := by
  obtain ⟨-, -, rfl⟩ := documentName_eq_ok_iff.mp h
  intro hc
  cases List.mem_append.mp hc with
  | inl hc => exact hdigit (isDigit_of_mem_zeroPadded hc)
  | inr hc => exact hend hc

theorem slash_not_mem_documentName (h : documentName sequence width = .ok name) : '/' ∉ name :=
  not_mem_documentName h (by decide) (by decide)

theorem nul_not_mem_documentName (h : documentName sequence width = .ok name) : '\x00' ∉ name :=
  not_mem_documentName h (by decide) (by decide)

theorem documentName_ne (h : documentName sequence width = .ok name) {other : Text}
    (hother : 't' ∉ other) : name ≠ other := by
  obtain ⟨-, -, rfl⟩ := documentName_eq_ok_iff.mp h
  rintro rfl
  exact hother (List.mem_append_right _ (by decide))

/-- A document name that is not too long is one that a directory entry can have. -/
theorem valid_documentName_iff (h : documentName sequence width = .ok name) :
    Name.Valid name ↔ name.byteLength ≤ 255 := by
  have hempty : name ≠ [] := documentName_ne h (by simp)
  have hhere : name ≠ ['.'] := documentName_ne h (by simp)
  have hup : name ≠ ['.', '.'] := documentName_ne h (by simp)
  simp [Name.Valid, hempty, hhere, hup, slash_not_mem_documentName h]

theorem component?_documentName (h : documentName sequence width = .ok name) :
    (∃ valid, Path.component? name = some (.name ⟨name, valid⟩)) ∨
      Path.component? name = some .tooLong := by
  by_cases hvalid : Name.Valid name
  · exact Or.inl ⟨hvalid, Path.component?_name ⟨name, hvalid⟩⟩
  · have hempty : name ≠ [] := documentName_ne h (by simp)
    have hhere : name ≠ ['.'] := documentName_ne h (by simp)
    have hup : name ≠ ['.', '.'] := documentName_ne h (by simp)
    simp [Path.component?, hempty, hhere, hup, hvalid]

theorem value_zeroPadded (sequence width : Nat) :
    Nat.ofDigitChars 10 (zeroPadded sequence width) 0 = sequence := by
  rw [zeroPadded, Nat.ofDigitChars_append, Nat.ofDigitChars_replicate_zero, Nat.mul_zero]
  exact Nat.ofDigitChars_ten_toDigits

/-- Different numbers have different names. -/
theorem documentName_injective {other : Nat} (h : documentName sequence width = .ok name)
    (hother : documentName other width = .ok name) : sequence = other := by
  obtain ⟨-, -, rfl⟩ := documentName_eq_ok_iff.mp h
  obtain ⟨-, -, heq⟩ := documentName_eq_ok_iff.mp hother
  rw [← value_zeroPadded sequence width, List.append_cancel_right heq, value_zeroPadded]

theorem fitsWidth_iff : fitsWidth sequence width ↔ sequence < 10 ^ width := by
  rw [fitsWidth, Bool.or_eq_true, beq_iff_eq, decide_eq_true_eq]
  cases width with
  | zero =>
    have hpos : 0 < (Text.ofNat sequence).length := Nat.length_toDigits_pos
    omega
  | succ width =>
    rw [Text.ofNat, Nat.length_toDigits_le_iff (by decide) (Nat.succ_pos width)]
    have hpow : 0 < 10 ^ (width + 1) := Nat.pow_pos (by decide)
    omega

theorem width_pos_of_fits (hpos : 0 < sequence) (hfits : fitsWidth sequence width) : 0 < width := by
  rw [fitsWidth_iff] at hfits
  cases width with
  | zero => exact absurd hfits (Nat.not_lt.mpr hpos)
  | succ width => exact Nat.succ_pos width

theorem length_zeroPadded (hwidth : 0 < width) (hfits : fitsWidth sequence width) :
    (zeroPadded sequence width).length = width := by
  rw [fitsWidth_iff, ← Nat.length_toDigits_le_iff (by decide) hwidth] at hfits
  have hle : (Text.ofNat sequence).length ≤ width := hfits
  rw [zeroPadded, List.length_append, List.length_replicate]
  omega

theorem toNat_of_isDigit {c : Char} (h : c.isDigit) : 48 ≤ c.toNat ∧ c.toNat ≤ 57 := by
  simp only [Char.isDigit, Bool.and_eq_true, decide_eq_true_eq] at h
  exact ⟨UInt32.le_iff_toNat_le.mp h.1, UInt32.le_iff_toNat_le.mp h.2⟩

theorem utf8Size_of_isDigit {c : Char} (h : c.isDigit) : c.utf8Size = 1 :=
  Char.utf8Size_eq_one_iff.mpr
    (UInt32.le_iff_toNat_le.mpr (Nat.le_trans (toNat_of_isDigit h).2 (by decide)))

theorem byteLength_eq_length {t : Text} (h : ∀ c ∈ t, c.utf8Size = 1) :
    t.byteLength = t.length := by
  induction t with
  | nil => rfl
  | cons c t ih =>
    rw [Text.byteLength, h c List.mem_cons_self, ih fun d hd => h d (List.mem_cons_of_mem _ hd),
      List.length_cons]
    omega

/-- A document has a name of as many bytes as the width asks for, and four more. -/
theorem byteLength_documentName (hpos : 0 < sequence) (h : documentName sequence width = .ok name) :
    name.byteLength = width + 4 := by
  obtain ⟨hfits, -, rfl⟩ := documentName_eq_ok_iff.mp h
  have hend : ".txt".toList.all (Char.utf8Size · == 1) = true := by decide
  rw [byteLength_eq_length, List.length_append,
    length_zeroPadded (width_pos_of_fits hpos hfits) hfits]
  · rfl
  · intro c hc
    cases List.mem_append.mp hc with
    | inl hc => exact utf8Size_of_isDigit (isDigit_of_mem_zeroPadded hc)
    | inr hc => exact beq_iff_eq.mp (List.all_eq_true.mp hend c hc)

/-! ## Order -/

theorem bytes_digit_cons {c : Char} (h : c.isDigit) (t : Text) :
    Text.bytes (c :: t) = UInt8.ofNat c.toNat :: Text.bytes t := by
  rw [Text.bytes, List.flatMap_cons, String.utf8EncodeChar_eq_singleton (utf8Size_of_isDigit h)]
  rfl

theorem ofDigitChars_digit_cons (c : Char) (t : Text) :
    Nat.ofDigitChars 10 (c :: t) 0 =
      10 ^ t.length * (c.toNat - 48) + Nat.ofDigitChars 10 t 0 := by
  rw [Nat.ofDigitChars_cons, Nat.ofDigitChars_eq_ofDigitChars_zero, Nat.mul_zero, Nat.zero_add]
  rfl

theorem ofDigitChars_lt {t : Text} (h : ∀ c ∈ t, c.isDigit) :
    Nat.ofDigitChars 10 t 0 < 10 ^ t.length := by
  induction t with
  | nil => simp
  | cons c t ih =>
    rw [List.forall_mem_cons] at h
    have hrest := ih h.2
    have hc := toNat_of_isDigit h.1
    have hmul := Nat.mul_le_mul_left (10 ^ t.length) (show c.toNat - 48 ≤ 9 by omega)
    rw [ofDigitChars_digit_cons, List.length_cons, Nat.pow_succ]
    omega

/-- Texts of equally many digits are in the order of their values, whatever stands behind both. -/
theorem bytes_lt_of_ofDigitChars_lt {s t : Text} (hs : ∀ c ∈ s, c.isDigit) (ht : ∀ c ∈ t, c.isDigit)
    (hlength : s.length = t.length) (hlt : Nat.ofDigitChars 10 s 0 < Nat.ofDigitChars 10 t 0)
    (after : Text) : Text.bytes (s ++ after) < Text.bytes (t ++ after) := by
  induction s generalizing t with
  | nil =>
    obtain rfl := List.length_eq_zero_iff.mp hlength.symm
    exact absurd hlt (Nat.lt_irrefl _)
  | cons c s ih =>
    obtain ⟨d, t, rfl⟩ := List.exists_cons_of_length_eq_add_one hlength.symm
    rw [List.forall_mem_cons] at hs ht
    have hc := toNat_of_isDigit hs.1
    have hd := toNat_of_isDigit ht.1
    have hrest : s.length = t.length := Nat.succ.inj hlength
    rw [ofDigitChars_digit_cons, ofDigitChars_digit_cons, hrest] at hlt
    rw [List.cons_append, List.cons_append, bytes_digit_cons hs.1, bytes_digit_cons ht.1,
      List.cons_lt_cons_iff, UInt8.lt_iff_toNat_lt, UInt8.toNat_ofNat', UInt8.toNat_ofNat']
    obtain hless | heq | hgreater := Nat.lt_trichotomy c.toNat d.toNat
    · exact Or.inl (by omega)
    · rw [heq] at hlt ⊢
      exact Or.inr ⟨rfl, ih hs.2 ht.2 hrest (Nat.lt_of_add_lt_add_left hlt)⟩
    · -- No digits behind it make up for a lesser one.
      have hafter := ofDigitChars_lt ht.2
      have hmul := Nat.mul_le_mul_left (10 ^ t.length)
        (show d.toNat - 48 + 1 ≤ c.toNat - 48 by omega)
      rw [Nat.mul_add, Nat.mul_one] at hmul
      omega

/-- The names of documents are in the order of their numbers. -/
theorem bytes_documentName_lt {other : Nat} {name' : Text}
    (h : documentName sequence width = .ok name) (h' : documentName other width = .ok name')
    (hlt : sequence < other) : name.bytes < name'.bytes := by
  obtain ⟨hfits, -, rfl⟩ := documentName_eq_ok_iff.mp h
  obtain ⟨hfits', -, rfl⟩ := documentName_eq_ok_iff.mp h'
  have hwidth := width_pos_of_fits (Nat.zero_lt_of_lt hlt) hfits'
  have hlength := length_zeroPadded hwidth hfits
  have hlength' := length_zeroPadded hwidth hfits'
  exact bytes_lt_of_ofDigitChars_lt (fun _ => isDigit_of_mem_zeroPadded)
    (fun _ => isDigit_of_mem_zeroPadded) (hlength.trans hlength'.symm)
    (by rwa [value_zeroPadded, value_zeroPadded]) ".txt".toList

/-- At one width the names are in the order of the numbers and in no other. -/
theorem bytes_documentName_lt_iff {other : Nat} {name' : Text}
    (h : documentName sequence width = .ok name) (h' : documentName other width = .ok name') :
    name.bytes < name'.bytes ↔ sequence < other := by
  refine ⟨fun hbytes => ?_, bytes_documentName_lt h h'⟩
  obtain hlt | rfl | hgt := Nat.lt_trichotomy sequence other
  · exact hlt
  · rw [h, Except.ok.injEq] at h'
    subst h'
    exact absurd hbytes (List.lt_irrefl _)
  · exact absurd hbytes (List.lt_asymm (bytes_documentName_lt h' h hgt))

/-! ## The limit of a width -/

/-- Ten to the power `width`, multiplied out in 64 bits. Nothing, where a product does not fit. -/
def sequenceLimit? : Nat → Option Nat
  | 0 => some 1
  | width + 1 =>
    (sequenceLimit? width).bind fun limit =>
      if limit * 10 < 2 ^ 64 then some (limit * 10) else none

theorem sequenceLimit?_eq (width : Nat) :
    sequenceLimit? width = if 10 ^ width < 2 ^ 64 then some (10 ^ width) else none := by
  induction width with
  | zero => rfl
  | succ width ih =>
    rw [sequenceLimit?, ih, Nat.pow_succ 10]
    by_cases hfits : 10 ^ width < 2 ^ 64
    · rw [if_pos hfits, Option.bind_some]
    · -- A power that does not fit is followed by none that does.
      have hnext : ¬ 10 ^ width * 10 < 2 ^ 64 := by omega
      rw [if_neg hfits, if_neg hnext, Option.bind_none]

/-- Counting digits is the test against the limit of the width, which every 64-bit number passes
where the limit is not a 64-bit number. -/
theorem fitsWidth_eq_all (hsequence : sequence < 2 ^ 64) :
    fitsWidth sequence width = (sequenceLimit? width).all (sequence < ·) := by
  rw [Bool.eq_iff_iff, fitsWidth_iff, sequenceLimit?_eq]
  split
  · rw [Option.all_some, decide_eq_true_eq]
  · next hlarge =>
    have hfits : sequence < 10 ^ width := by omega
    simp [hfits]

theorem documentName_eq_overflow (h : 10 ^ width ≤ sequence) :
    documentName sequence width = .error (.raised (.sequenceOverflow sequence width)) := by
  have hnot : ¬ fitsWidth sequence width := by rwa [fitsWidth_iff, Nat.not_lt]
  obtain ⟨-, heq⟩ | ⟨hfits, -⟩ | ⟨hfits, -⟩ := documentName_cases sequence width
  · exact heq
  · exact absurd hfits hnot
  · exact absurd hfits hnot

theorem exists_documentName_iff (hsupported : width ≤ maxSequenceWidth) :
    (∃ name, documentName sequence width = .ok name) ↔ sequence < 10 ^ width := by
  simp [documentName_eq_ok_iff, fitsWidth_iff, hsupported]

/-- A 64-bit number has a name exactly if it has no more digits than the width, which the limit of the
width decides. The name consists of as many digits as the width says, which have the value of the
number. Names of one width are equal, or in order, exactly as the numbers are. -/
theorem documentName_exact (hsequence : sequence < 2 ^ 64) (hwidth : 1 ≤ width)
    (hsupported : width ≤ maxSequenceWidth) :
    ((∃ name, documentName sequence width = .ok name) ↔ sequence < 10 ^ width) ∧
      (10 ^ width ≤ sequence →
        documentName sequence width = .error (.raised (.sequenceOverflow sequence width))) ∧
      ((∃ name, documentName sequence width = .ok name) ↔
        (sequenceLimit? width).all (sequence < ·)) ∧
      ∀ name, documentName sequence width = .ok name →
        (∃ digits, name = digits ++ ".txt".toList ∧ digits.length = width ∧
          (∀ c ∈ digits, c.isDigit) ∧ Nat.ofDigitChars 10 digits 0 = sequence) ∧
        ∀ other name', documentName other width = .ok name' →
          (name = name' ↔ sequence = other) ∧ (name.bytes < name'.bytes ↔ sequence < other) := by
  refine ⟨exists_documentName_iff hsupported, documentName_eq_overflow, ?_, ?_⟩
  · rw [exists_documentName_iff hsupported, ← fitsWidth_eq_all hsequence, fitsWidth_iff]
  · intro name hname
    constructor
    · obtain ⟨hfits, -, rfl⟩ := documentName_eq_ok_iff.mp hname
      exact ⟨zeroPadded sequence width, rfl, length_zeroPadded hwidth hfits,
        fun _ => isDigit_of_mem_zeroPadded, value_zeroPadded sequence width⟩
    · intro other name' hname'
      refine ⟨⟨?_, ?_⟩, bytes_documentName_lt_iff hname hname'⟩
      · rintro rfl
        exact documentName_injective hname hname'
      · rintro rfl
        exact Except.ok.inj (hname.symm.trans hname')

/-- The greatest 64-bit number has a name of twenty digits, whose limit is no 64-bit number. -/
theorem documentName_exact_greatest :
    let greatest := 2 ^ 64 - 1
    let name : Text := "18446744073709551615.txt".toList
    documentName greatest 20 = .ok name ∧ sequenceLimit? 20 = none ∧
      documentName 42 20 = .ok "00000000000000000042.txt".toList ∧
      Text.bytes "00000000000000000042.txt".toList < name.bytes ∧
      documentName greatest 19 = .error (.raised (.sequenceOverflow greatest 19)) := by
  intro greatest name
  have hname : documentName greatest 20 = .ok name :=
    documentName_eq_ok_iff.mpr (by decide +kernel)
  have hother : documentName 42 20 = .ok "00000000000000000042.txt".toList :=
    documentName_eq_ok_iff.mpr (by decide +kernel)
  have hlimit : sequenceLimit? 20 = none := by decide +kernel
  have hwide := documentName_exact (show 42 < 2 ^ 64 by decide) (show 1 ≤ 20 by decide)
    (show 20 ≤ maxSequenceWidth by decide)
  have hnarrow := documentName_exact (show greatest < 2 ^ 64 by decide) (show 1 ≤ 19 by decide)
    (show 19 ≤ maxSequenceWidth by decide)
  exact ⟨hname, hlimit, hother, ((hwide.2.2.2 _ hother).2 _ _ hname).2.mpr (by decide),
    hnarrow.2.1 (by decide)⟩

/-! ## Places -/

/-- Where the path of a document leads: to its place in the directory for documents, unless the path
or the name is too long. -/
theorem land_document {fs : FileSystem} {output : Text} {out : Location}
    (hout : fs.documentDirectory output = .ok out)
    (hname : documentName sequence width = .ok name) :
    fs.land .entry (Path.join output name) =
      if Path.isTooLong (Path.join output name) then .error .nameTooLong
      else if valid : Name.Valid name then .ok (fs.entryAt out ⟨name, valid⟩)
      else .error .nameTooLong := by
  have hslash := slash_not_mem_documentName hname
  have hnul := nul_not_mem_documentName hname
  split
  · next hlong =>
    rw [FileSystem.land_eq, Path.holdsNul_join output hnul, if_neg (fs.not_holdsNul hout),
      if_neg (Path.join_ne_nil output (documentName_ne hname (by simp))), if_pos hlong]
  · next hlong =>
    obtain ⟨valid, hstep⟩ | hstep := component?_documentName hname
    · rw [dif_pos valid]
      exact FileSystem.land_join_name hout ⟨name, valid⟩ hnul hlong
    · rw [FileSystem.land_join (by simp) hout hslash hnul hstep hlong fun _ => rfl]
      have hinvalid : ¬ Name.Valid name := by
        intro valid
        rw [Path.component?_name ⟨name, valid⟩] at hstep
        simp at hstep
      rw [dif_neg hinvalid]
      rfl

/-- A document is made directly in the directory for documents, under its name. -/
theorem createFile_document {fs made : FileSystem} {output : Text} {out : Location}
    {content : Bytes} (hout : fs.documentDirectory output = .ok out)
    (hname : documentName sequence width = .ok name)
    (h : fs.createFile (Path.join output name) content = .ok made) :
    ∃ valid isDirectory isFree,
      made = fs.insert out ⟨name, valid⟩ isDirectory isFree (.file content) := by
  obtain ⟨dir, entry, isDirectory, isFree, hland, rfl⟩ := FileSystem.createFile_eq_ok h
  rw [land_document hout hname] at hland
  split at hland
  · simp at hland
  · split at hland
    · next valid =>
      rw [FileSystem.entryAt, Except.ok.injEq] at hland
      split at hland
      · simp only [FileSystem.Landing.free.injEq] at hland
        obtain ⟨rfl, rfl⟩ := hland
        exact ⟨valid, isDirectory, isFree, rfl⟩
      · simp at hland
    · simp at hland

/-- Why a document cannot be made: something is in its place, or its path or its name is too long. -/
theorem createFile_document_error {fs : FileSystem} {output : Text} {out : Location}
    {content : Bytes} {e : FileError} (hout : fs.documentDirectory output = .ok out)
    (hname : documentName sequence width = .ok name)
    (h : fs.createFile (Path.join output name) content = .error e) :
    (e = .alreadyExists ∧ ∃ valid node, fs.get? (⟨name, valid⟩ :: out) = some node) ∨
      e = .nameTooLong ∧ (Path.isTooLong (Path.join output name) ∨ 255 < name.byteLength) := by
  have hland := land_document hout hname
  split at hland
  · next hlong =>
    rw [FileSystem.createFile_of_error content hland, Except.error.injEq] at h
    exact Or.inr ⟨h.symm, Or.inl hlong⟩
  · split at hland
    · next valid =>
      rw [FileSystem.entryAt] at hland
      split at hland
      · obtain ⟨_, _, hmade⟩ := FileSystem.createFile_of_free content hland
        simp [hmade] at h
      · next node hthere =>
        rw [FileSystem.createFile_of_node content hland, Except.error.injEq] at h
        exact Or.inl ⟨h.symm, valid, node, hthere⟩
    · next hinvalid =>
      rw [FileSystem.createFile_of_error content hland, Except.error.injEq] at h
      rw [valid_documentName_iff hname] at hinvalid
      exact Or.inr ⟨h.symm, Or.inr (by omega)⟩

/-- A document is made if its path is not too long and its place is free. -/
theorem createFile_document_of_free {fs : FileSystem} {output : Text} {out : Location} {name : Name}
    (content : Bytes) (hout : fs.documentDirectory output = .ok out)
    (hname : documentName sequence width = .ok name.text)
    (hlong : ¬ Path.isTooLong (Path.join output name.text))
    (hfree : fs.get? (name :: out) = none) :
    ∃ isDirectory isFree,
      fs.createFile (Path.join output name.text) content =
        .ok (fs.insert out name isDirectory isFree (.file content)) := by
  apply FileSystem.createFile_of_free
  rw [FileSystem.land_join_name hout name (nul_not_mem_documentName hname) hlong,
    FileSystem.entryAt, hfree]

/-- A document that has been made is read under its path. -/
theorem read_document {fs made : FileSystem} {output : Text} {out : Location} {content : Bytes}
    (hout : fs.documentDirectory output = .ok out)
    (hname : documentName sequence width = .ok name)
    (h : fs.createFile (Path.join output name) content = .ok made) :
    made.read (Path.join output name) = .ok content := by
  have hlong : ¬ Path.isTooLong (Path.join output name) := by
    intro hlong
    have hland := land_document hout hname
    rw [if_pos hlong] at hland
    rw [FileSystem.createFile_of_error content hland] at h
    cases h
  obtain ⟨valid, isDirectory, isFree, rfl⟩ := createFile_document hout hname h
  have hgrow : FileSystem.GrowsBy (FileSystem.FileIn (· = out)) fs
      (fs.insert out ⟨name, valid⟩ isDirectory isFree (.file content)) :=
    .insert fs isDirectory isFree ⟨_, out, content, rfl, rfl, rfl⟩
  have hout' := (FileSystem.documentDirectory_grows hgrow).mpr hout
  have hthere := FileSystem.get?_insert_self fs isDirectory isFree (.file content)
  exact FileSystem.read_join hout' (nul_not_mem_documentName hname) hlong hthere

end TokenCorpus
