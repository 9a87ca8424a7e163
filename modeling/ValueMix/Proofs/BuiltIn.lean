import Mathlib
import ValueMix.Proofs.Matching
import ValueMix.Proofs.Numerals
import ValueMix.Spec.Kind

/-!
# The codecs of the three kinds

The regular expressions of tokens and of whole texts, read once and for all:
`tokenPattern` and `specPattern` are the patterns that they write. Tokens of
every kind consist of letters, digits and three marks, so they never contain
a blank, a separator or a bracket.

## Main results

* `ofReader_reader` — every kind has a codec, with these patterns.
* `plain_codec` — the tokens of a kind are plain.
-/

namespace ValueMix

open ValueMix.Number ValueMix.Text

/-! ## Plain tokens -/

/-- The characters of plain tokens: letters, digits, `_`, `.` and `-`. -/
def IsTokenChar (c : Char) : Prop :=
  (48 ≤ c.toNat ∧ c.toNat ≤ 57) ∨ (65 ≤ c.toNat ∧ c.toNat ≤ 90) ∨
    (97 ≤ c.toNat ∧ c.toNat ≤ 122) ∨ c.toNat = 95 ∨ c.toNat = 46 ∨
    c.toNat = 45

instance (c : Char) : Decidable (IsTokenChar c) :=
  inferInstanceAs (Decidable (_ ∨ _))

theorem isBlank_of_isTokenChar {c : Char} (h : IsTokenChar c) :
    isBlank c = false := by
  simp only [isBlank, blankRanges, List.any_cons, List.any_nil, Bool.or_false,
    Bool.or_eq_false_iff, Bool.and_eq_false_iff, decide_eq_false_iff_not]
  unfold IsTokenChar at h
  omega

/-- The tokens of a codec are texts of token characters, at least one. -/
structure Codec.Plain {α : Type} (c : Codec α) : Prop where
  ne_nil : ∀ t, c.token.Matches t → t ≠ []
  isTokenChar : ∀ t, c.token.Matches t → ∀ ch ∈ t, IsTokenChar ch

namespace Codec.Plain

variable {α : Type} {c : Codec α} {t : List Char}

theorem tight (hc : c.Plain) (ht : c.token.Matches t) : Tight t :=
  Tight.of_forall fun ch hch =>
    isBlank_of_isTokenChar (hc.isTokenChar t ht ch hch)

theorem not_mem (hc : c.Plain) (ht : c.token.Matches t) {ch : Char}
    (hch : ¬ IsTokenChar ch) : ch ∉ t :=
  fun hMem => hch (hc.isTokenChar t ht ch hMem)

end Codec.Plain

namespace Spec

open Pattern

/-! ## The patterns of whole texts -/

/-- The ASCII digits. -/
def digitSet : CharSet := ⟨[(48, 57)], false⟩

/-- Any number of blanks. -/
def blanks : Pattern := star (char .blank)

/-- Digits, at least one. -/
def someDigits : Pattern := seq (char digitSet) (star (char digitSet))

/-- The pattern of numbers in front of a colon. -/
def number : Pattern :=
  choice
    [sequence [someDigits,
      optional (sequence [char (.single '.'), star (char digitSet)])],
    sequence [char (.single '.'), someDigits]]

/-- The pattern of what may stand in front of a token. -/
def numberFront : Pattern :=
  sequence [number, blanks, optional (char (.single '%')), blanks,
    char (.single ':'), blanks]

/-- The parts of the pattern of an entry. -/
def entryParts (token : Pattern) : List Pattern :=
  [blanks, optional numberFront, token, blanks]

/-- The pattern of whole texts. -/
def specPattern (token : Pattern) : Pattern :=
  sequence ([blanks, optional (char (.single '['))] ++ entryParts token ++
    [star (sequence (char (.single ',') :: entryParts token)),
      optional (char (.single ']')), blanks])

/-! ## What the parts match -/

/-- The digits of patterns are the digits of numbers. -/
theorem contains_digitSet_iff {c : Char} :
    digitSet.contains c = true ↔ c.isDigit = true := by
  simp only [CharSet.contains, digitSet, List.any_cons, List.any_nil,
    Bool.or_false, Bool.bne_false, Bool.and_eq_true, decide_eq_true_eq]
  constructor
  · rintro ⟨hLow, hHigh⟩
    rw [Char.isDigit, Bool.and_eq_true, decide_eq_true_eq, decide_eq_true_eq]
    exact ⟨UInt32.le_iff_toNat_le.2 hLow, UInt32.le_iff_toNat_le.2 hHigh⟩
  · exact toNat_of_isDigit

theorem matches_someDigits_iff {cs : List Char} :
    someDigits.Matches cs ↔ cs ≠ [] ∧ Digits cs := by
  rw [someDigits, matches_some_char_iff]
  simp only [contains_digitSet_iff]
  rfl

theorem matches_blanks_iff {cs : List Char} : blanks.Matches cs ↔ Blank cs := by
  have hBlank : ∀ c, CharSet.blank.contains c = isBlank c := by
    intro c
    exact Bool.bne_false _
  rw [blanks, matches_star_char_iff]
  simp only [hBlank]
  rfl

theorem matches_single_iff {c : Char} {cs : List Char} :
    Matches (char (.single c)) cs ↔ cs = [c] := by
  have hSingle : ∀ d, (CharSet.single c).contains d = true ↔ d = c := by
    intro d
    simp only [CharSet.contains, CharSet.single, List.any_cons, List.any_nil,
      Bool.or_false, Bool.bne_false, Bool.and_eq_true, decide_eq_true_eq]
    rw [← Char.toNat_inj]
    omega
  rw [matches_char_iff]
  simp only [hSingle, exists_eq_left]

/-- The pattern of numbers matches the numerals without sign. -/
theorem matches_number_iff {cs : List Char} :
    number.Matches cs ↔ ∃ q, Numeral cs q := by
  have hFraction : ∀ {fs : List Char}, Matches (star (char digitSet)) fs ↔
      Digits fs := by
    intro fs
    rw [matches_star_char_iff]
    simp only [contains_digitSet_iff]
    rfl
  simp only [number, choice, Pattern.sequence, matches_alt_iff, matches_seq_iff,
    matches_optional_iff, matches_single_iff, matches_someDigits_iff, hFraction]
  constructor
  · rintro (⟨ds, _, ⟨hne, hds⟩, ⟨_, fs, rfl, hfs, rfl⟩ | rfl, rfl⟩ |
      ⟨_, fs, rfl, ⟨hne, hfs⟩, rfl⟩)
    · exact ⟨_, .point hne hds hfs⟩
    · rw [List.append_nil]
      exact ⟨_, .whole hne hds⟩
    · exact ⟨_, .fraction hne hfs⟩
  · rintro ⟨q, h⟩
    cases h with
    | whole hne hds => exact .inl ⟨cs, [], ⟨hne, hds⟩, .inr rfl, by simp⟩
    | @point ds fs hne hds hfs =>
        exact .inl ⟨ds, '.' :: fs, ⟨hne, hds⟩,
          .inl ⟨['.'], fs, rfl, hfs, rfl⟩, rfl⟩
    | @fraction fs hne hfs => exact .inr ⟨['.'], fs, rfl, ⟨hne, hfs⟩, rfl⟩

end Spec

namespace Kind

open Pattern

/-! ## Kinds -/

/-- The values of a kind. -/
def Value : Kind → Type
  | integer => UInt64
  | size => UInt64
  | word => String

instance (k : Kind) : ToString k.Value :=
  match k with
  | integer => inferInstanceAs (ToString UInt64)
  | size => inferInstanceAs (ToString UInt64)
  | word => inferInstanceAs (ToString String)

/-- The reader of the values of a kind. -/
def reader : (k : Kind) → ValueReader k.Value
  | integer => .integer
  | size => .size
  | word => .word

/-- The unit letters of sizes, small and capital. -/
def unitSet : CharSet :=
  ⟨[(107, 107), (75, 75), (109, 109), (77, 77), (103, 103), (71, 71),
    (116, 116), (84, 84)], false⟩

/-- The letter b, small and capital. -/
def byteSet : CharSet := ⟨[(98, 98), (66, 66)], false⟩

/-- The characters that a word begins with. -/
def wordStart : CharSet := ⟨[(65, 90), (97, 122), (95, 95)], false⟩

/-- The characters that a word goes on with. -/
def wordSet : CharSet :=
  ⟨[(65, 90), (97, 122), (48, 57), (95, 95), (46, 46), (45, 45)], false⟩

/-- The pattern of the tokens of a kind. -/
def tokenPattern : Kind → Pattern
  | integer => Spec.someDigits
  | size =>
      sequence [Spec.someDigits,
        optional (sequence [char unitSet, optional (char byteSet)])]
  | word => sequence [char wordStart, star (char wordSet)]

/-- The codec of a kind. -/
def codec (k : Kind) : Codec k.Value :=
  ⟨k.reader, k.tokenPattern, Spec.specPattern k.tokenPattern⟩

private theorem ofText?_token (k : Kind) :
    Pattern.ofText? (Spec.grouped k.reader.pattern) = some k.tokenPattern := by
  cases k <;> decide +kernel

private theorem ofText?_spec (k : Kind) :
    Pattern.ofText? (Spec.grouped (Spec.allowedPattern k.reader.pattern)) =
      some (Spec.specPattern k.tokenPattern) := by
  cases k <;> decide +kernel

/-- Every kind has a codec. -/
theorem ofReader_reader (k : Kind) : Codec.ofReader k.reader = .ok k.codec := by
  rw [Codec.ofReader, ofText?_token, ofText?_spec]
  rfl

/-! ## Tokens -/

theorem isTokenChar_of_isDigit {c : Char} (h : c.isDigit = true) :
    IsTokenChar c :=
  Or.inl (toNat_of_isDigit h)

private theorem within_tokenPattern (k : Kind) :
    Within IsTokenChar k.tokenPattern := by
  have hDigits : ∀ c, Spec.digitSet.contains c = true → IsTokenChar c :=
    fun c hc => isTokenChar_of_isDigit (Spec.contains_digitSet_iff.1 hc)
  -- every other range of characters consists of letters and marks
  have hRanges : ∀ (s : CharSet), s.negated = false →
      (∀ r ∈ s.ranges, ∀ n, r.1 ≤ n → n ≤ r.2 →
        (48 ≤ n ∧ n ≤ 57) ∨ (65 ≤ n ∧ n ≤ 90) ∨ (97 ≤ n ∧ n ≤ 122) ∨
          n = 95 ∨ n = 46 ∨ n = 45) →
      ∀ c, s.contains c = true → IsTokenChar c := by
    intro s hNegated h c hc
    rw [CharSet.contains, hNegated, Bool.bne_false, List.any_eq_true] at hc
    obtain ⟨r, hr, hIn⟩ := hc
    rw [Bool.and_eq_true, decide_eq_true_eq, decide_eq_true_eq] at hIn
    exact h r hr c.toNat hIn.1 hIn.2
  cases k with
  | integer => exact ⟨hDigits, hDigits⟩
  | size =>
      refine ⟨⟨hDigits, hDigits⟩, ⟨?_, ?_, trivial⟩, trivial⟩
      · refine hRanges unitSet rfl ?_
        simp only [unitSet, List.forall_mem_cons]
        refine ⟨?_, ?_, ?_, ?_, ?_, ?_, ?_, ?_, by simp⟩ <;> omega
      · refine hRanges byteSet rfl ?_
        simp only [byteSet, List.forall_mem_cons]
        refine ⟨?_, ?_, by simp⟩ <;> omega
  | word =>
      refine ⟨hRanges wordStart rfl ?_, hRanges wordSet rfl ?_⟩
      · simp only [wordStart, List.forall_mem_cons]
        refine ⟨?_, ?_, ?_, by simp⟩ <;> omega
      · simp only [wordSet, List.forall_mem_cons]
        refine ⟨?_, ?_, ?_, ?_, ?_, ?_, by simp⟩ <;> omega

/-- The tokens of a kind are plain. -/
theorem plain_codec (k : Kind) : k.codec.Plain where
  ne_nil := by
    rintro t ht rfl
    have hNullable : k.tokenPattern.nullable = true := nullable_iff.2 ht
    cases k <;> exact absurd hNullable (by decide)
  isTokenChar := fun _ ht => ht.forall_mem (within_tokenPattern k)

/-! ## The text of a value -/

theorem smallLetter_of_isDigit {c : Char} (h : c.isDigit = true) :
    ValueReader.smallLetter c = c := by
  have hRange := toNat_of_isDigit h
  unfold ValueReader.smallLetter
  split
  · rename_i hKelvin
    rw [hKelvin] at hRange
    exact absurd hRange (by decide)
  · rw [Char.toLower, dif_neg]
    rintro ⟨hLow, -⟩
    have := UInt32.le_iff_toNat_le.1 hLow
    have hNat : c.val.toNat = c.toNat := rfl
    have hA : ('A' : Char).val.toNat = 65 := rfl
    omega

/-- Digits are read as their value, if it fits into a word. -/
theorem readWord_of_digits {ds : List Char} (hne : ds ≠ []) (h : Digits ds) :
    readWord ds =
      if digitsValue ds < UInt64.size then some (UInt64.ofNat (digitsValue ds))
      else none := by
  have hPlus : ∀ rest, ds ≠ '+' :: rest := by
    intro rest hText
    exact absurd (h '+' (by rw [hText]; simp)) (by decide)
  unfold readWord
  split
  · exact absurd rfl (hPlus _)
  · simp only [allDigits_iff.2 h]
    rw [if_neg (by simpa using hne)]

theorem readWord_digits {n : ℕ} (h : n < UInt64.size) :
    readWord (digits n) = some (UInt64.ofNat n) := by
  rw [readWord_of_digits (digits_ne_nil n) (digits_digits n),
    digitsValue_digits, if_pos h]

theorem dropLast?_of_digits {c : Char} {cs : List Char}
    (h : Digits cs) (hc : c.isDigit = false) :
    ValueReader.dropLast? c cs = none := by
  rw [ValueReader.dropLast?, if_neg]
  intro hLast
  rw [h c (List.mem_of_getLast? hLast)] at hc
  cases hc

theorem readSize_digits {n : ℕ} (h : n < UInt64.size) :
    ValueReader.readSize (digits n) = some (UInt64.ofNat n) := by
  have hDigits := digits_digits n
  have hTrim : trim (digits n) = digits n :=
    trim_of_tight (Tight.of_forall fun c hc =>
      isBlank_of_isDigit (hDigits c hc))
  have hSmall : (digits n).map ValueReader.smallLetter = digits n := by
    rw [List.map_congr_left fun c hc => smallLetter_of_isDigit (hDigits c hc)]
    exact List.map_id' _
  have hParts : ValueReader.sizeParts (digits n) = (digits n, 1) := by
    have hNone : ∀ c : Char, c.isDigit = false →
        ValueReader.dropLast? c (digits n) = none :=
      fun c hc => dropLast?_of_digits hDigits hc
    simp [ValueReader.sizeParts, ValueReader.sizeUnits,
      hNone 'k' (by decide), hNone 'm' (by decide), hNone 'g' (by decide),
      hNone 't' (by decide)]
  have hNat : (UInt64.ofNat n).toNat = n := UInt64.toNat_ofNat_of_lt h
  unfold ValueReader.readSize
  simp only [hTrim, hSmall, dropLast?_of_digits hDigits (c := 'b') (by decide),
    Option.getD_none, hParts, readWord_digits h, Option.bind_eq_bind,
    Option.bind_some, Nat.mul_one, hNat]
  rw [if_pos h]

theorem toList_toString_word64 (v : UInt64) :
    (toString v).toList = digits v.toNat :=
  toList_toString_nat v.toNat

/-- The text of a value that a token can have is a token of that value. -/
theorem statedValue_toString (k : Kind) {t : List Char} {v : k.Value}
    (hMatch : k.tokenPattern.Matches t) (hRead : k.reader.read t = some v) :
    k.tokenPattern.Matches (toString v).toList ∧
      k.reader.read (toString v).toList = some v := by
  cases k with
  | integer =>
      have hText : (toString v).toList = digits (UInt64.toNat v) :=
        toList_toString_word64 v
      rw [hText]
      constructor
      · exact Spec.matches_someDigits_iff.2 ⟨digits_ne_nil _, digits_digits _⟩
      · exact (readWord_digits (UInt64.toNat_lt_size v)).trans
          (congrArg some UInt64.ofNat_toNat)
  | size =>
      have hText : (toString v).toList = digits (UInt64.toNat v) :=
        toList_toString_word64 v
      rw [hText]
      constructor
      · have hDigits := Spec.matches_someDigits_iff.2
          ⟨digits_ne_nil (UInt64.toNat v), digits_digits _⟩
        exact matches_sequence_cons_iff.2 ⟨_, [], hDigits,
          matches_optional_iff.2 (Or.inr rfl), by simp⟩
      · exact (readSize_digits (UInt64.toNat_lt_size v)).trans
          (congrArg some UInt64.ofNat_toNat)
  | word =>
      have hValue : v = String.ofList t := (Option.some.inj hRead).symm
      have hText : (toString v).toList = t := by
        rw [hValue]
        exact String.toList_ofList
      rw [hText]
      exact ⟨hMatch, hRead⟩

end Kind

end ValueMix
