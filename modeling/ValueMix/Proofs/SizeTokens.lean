import Mathlib
import ValueMix.Proofs.BuiltIn
import ValueMix.Proofs.DecimalForms

/-!
# Size tokens by their parts

A size is written as digits, then a unit letter or none, then the letter b or
none. It states the number of the digits times a power of 1024. Reading it
takes two steps that can fail, the digits and the product; together they fail
exactly if the product is too large for a word, because a product is not smaller
than the number of its digits.

## Main results

* `number_le_bytes` — a product is not smaller than the number of its digits.
* `matches_size_iff` — the pattern of sizes matches the tokens that have no b
  without a unit.
* `readSize_text` — what a size token is read as.
* `readSize_exact` — all of this, what does not matter to a size, and decimal
  texts.
-/

namespace ValueMix

open ValueMix.Text

/-! ## Size tokens -/

/-- The units of sizes. -/
inductive SizeUnit where
  | kilo
  | mega
  | giga
  | tera
  deriving DecidableEq

namespace SizeUnit

/-- The power of 1024 that a unit stands for. -/
def power : SizeUnit → ℕ
  | kilo => 1
  | mega => 2
  | giga => 3
  | tera => 4

/-- The letter of a unit, small or capital. -/
def letter : SizeUnit → Bool → Char
  | kilo, capital => if capital then 'K' else 'k'
  | mega, capital => if capital then 'M' else 'm'
  | giga, capital => if capital then 'G' else 'g'
  | tera, capital => if capital then 'T' else 't'

end SizeUnit

/-- The letter b, small or capital. -/
def byteLetter (capital : Bool) : Char := if capital then 'B' else 'b'

/-- The parts of a size. The letters are given with their case. -/
structure SizeToken where
  number : List Char
  unit : Option (SizeUnit × Bool)
  /-- Whether there is a final b, and then whether it is a capital letter. -/
  byte : Option Bool
  number_ne_nil : number ≠ []
  number_digits : Digits number

namespace SizeToken

/-- The unit letter of a size, if it has one. -/
def unitText (t : SizeToken) : List Char :=
  (t.unit.map fun u => u.1.letter u.2).toList

/-- The final b of a size, if it has one. -/
def byteText (t : SizeToken) : List Char := (t.byte.map byteLetter).toList

def text (t : SizeToken) : List Char := t.number ++ t.unitText ++ t.byteText

/-- The power of 1024 that multiplies the number. -/
def power (t : SizeToken) : ℕ := (t.unit.map fun u => u.1.power).getD 0

/-- The number of bytes that a size states, however large it is. -/
def bytes (t : SizeToken) : ℕ := placeValue t.number * 1024 ^ t.power

end SizeToken

/-! ## The pattern of sizes -/

namespace Kind

open Pattern

/-- A set of single characters. -/
theorem contains_singles_iff (cs : List Char) (c : Char) :
    CharSet.contains ⟨cs.map fun d => (d.toNat, d.toNat), false⟩ c = true ↔
      c ∈ cs := by
  simp only [CharSet.contains, Bool.bne_false, List.any_map, List.any_eq_true,
    Function.comp_apply, Bool.and_eq_true, decide_eq_true_eq]
  constructor
  · rintro ⟨d, hd, hLow, hHigh⟩
    rwa [Char.toNat_inj.1 (Nat.le_antisymm hHigh hLow)]
  · exact fun hc => ⟨c, hc, le_rfl, le_rfl⟩

theorem contains_unitSet_iff {c : Char} :
    unitSet.contains c = true ↔ ∃ u capital, c = SizeUnit.letter u capital := by
  have hLetters : unitSet.contains c = true ↔
      c ∈ ['k', 'K', 'm', 'M', 'g', 'G', 't', 'T'] :=
    contains_singles_iff ['k', 'K', 'm', 'M', 'g', 'G', 't', 'T'] c
  rw [hLetters]
  constructor
  · simp only [List.mem_cons, List.not_mem_nil, or_false]
    rintro (rfl | rfl | rfl | rfl | rfl | rfl | rfl | rfl)
    · exact ⟨.kilo, false, rfl⟩
    · exact ⟨.kilo, true, rfl⟩
    · exact ⟨.mega, false, rfl⟩
    · exact ⟨.mega, true, rfl⟩
    · exact ⟨.giga, false, rfl⟩
    · exact ⟨.giga, true, rfl⟩
    · exact ⟨.tera, false, rfl⟩
    · exact ⟨.tera, true, rfl⟩
  · rintro ⟨u, capital, rfl⟩
    cases u <;> cases capital <;> decide

theorem contains_byteSet_iff {c : Char} :
    byteSet.contains c = true ↔ ∃ capital, c = byteLetter capital := by
  have hLetters : byteSet.contains c = true ↔ c ∈ ['b', 'B'] :=
    contains_singles_iff ['b', 'B'] c
  rw [hLetters]
  constructor
  · simp only [List.mem_cons, List.not_mem_nil, or_false]
    rintro (rfl | rfl)
    · exact ⟨false, rfl⟩
    · exact ⟨true, rfl⟩
  · rintro ⟨capital, rfl⟩
    cases capital <;> decide

/-- The pattern of sizes matches the size tokens that have no b without a unit
in front of it. -/
theorem matches_size_iff {cs : List Char} :
    size.tokenPattern.Matches cs ↔
      ∃ t : SizeToken, (t.byte.isSome → t.unit.isSome) ∧ cs = t.text := by
  simp only [tokenPattern, Pattern.sequence, matches_seq_iff,
    matches_optional_iff, matches_char_iff, Spec.matches_someDigits_iff,
    contains_unitSet_iff, contains_byteSet_iff]
  constructor
  · rintro ⟨ds, rest, ⟨hne, hds⟩, hRest, rfl⟩
    rcases hRest with ⟨_, bs, ⟨_, ⟨u, capital, rfl⟩, rfl⟩, hByte, rfl⟩ | rfl
    · rcases hByte with ⟨_, ⟨b, rfl⟩, rfl⟩ | rfl
      · exact ⟨⟨ds, some (u, capital), some b, hne, hds⟩, fun _ => rfl,
          by simp [SizeToken.text, SizeToken.unitText, SizeToken.byteText]⟩
      · exact ⟨⟨ds, some (u, capital), none, hne, hds⟩, fun _ => rfl,
          by simp [SizeToken.text, SizeToken.unitText, SizeToken.byteText]⟩
    · exact ⟨⟨ds, none, none, hne, hds⟩, fun h => h,
        by simp [SizeToken.text, SizeToken.unitText, SizeToken.byteText]⟩
  · rintro ⟨⟨ds, unit, byte, hne, hds⟩, hByte, rfl⟩
    refine ⟨ds, _, ⟨hne, hds⟩, ?_, by rw [SizeToken.text, List.append_assoc]⟩
    cases unit with
    | none =>
        cases byte with
        | none => exact .inr rfl
        | some b => cases hByte rfl
    | some u =>
        refine .inl ⟨_, _, ⟨_, ⟨u.1, u.2, rfl⟩, rfl⟩, ?_, rfl⟩
        cases byte with
        | none => exact .inr rfl
        | some b => exact .inl ⟨_, ⟨b, rfl⟩, rfl⟩

end Kind

/-! ## Reading sizes -/

namespace ValueReader

theorem dropLast?_concat (c : Char) (cs : List Char) :
    dropLast? c (cs ++ [c]) = some cs := by
  simp [dropLast?]

theorem smallLetter_letter (u : SizeUnit) (capital : Bool) :
    smallLetter (u.letter capital) = u.letter false := by
  cases u <;> cases capital <;> decide

theorem smallLetter_byteLetter (capital : Bool) :
    smallLetter (byteLetter capital) = 'b' := by
  cases capital <;> decide

/-- A unit letter behind digits tells the unit. -/
theorem sizeParts_letter (ds : List Char) (u : SizeUnit) :
    sizeParts (ds ++ [u.letter false]) = (ds, 1024 ^ u.power) := by
  cases u <;> simp [sizeParts, sizeUnits, dropLast?, SizeUnit.letter,
    SizeUnit.power]

theorem sizeParts_digits {ds : List Char} (h : Digits ds) :
    sizeParts ds = (ds, 1) := by
  have hNone : ∀ c : Char, c.isDigit = false → dropLast? c ds = none :=
    fun c hc => Kind.dropLast?_of_digits h hc
  simp [sizeParts, sizeUnits, hNone 'k' (by decide), hNone 'm' (by decide),
    hNone 'g' (by decide), hNone 't' (by decide)]

end ValueReader

namespace SizeToken

open ValueReader

variable (t : SizeToken)

/-- Sizes consist of digits and letters. -/
theorem isTokenChar_text : ∀ c ∈ t.text, IsTokenChar c := by
  obtain ⟨ds, unit, byte, hne, hds⟩ := t
  have hLetter : ∀ (u : SizeUnit) capital, IsTokenChar (u.letter capital) := by
    intro u capital
    cases u <;> cases capital <;> decide
  have hByte : ∀ capital, IsTokenChar (byteLetter capital) := by
    intro capital
    cases capital <;> decide
  simp only [text, unitText, byteText, List.mem_append, Option.mem_toList,
    Option.map_eq_some_iff]
  rintro c ((hc | ⟨u, -, rfl⟩) | ⟨b, -, rfl⟩)
  · exact Kind.isTokenChar_of_isDigit (hds c hc)
  · exact hLetter u.1 u.2
  · exact hByte b

theorem trim_text : trim t.text = t.text :=
  trim_of_tight (Tight.of_forall fun c hc =>
    isBlank_of_isTokenChar (t.isTokenChar_text c hc))

/-- The number and the small unit letter of a size. -/
def stem : List Char :=
  t.number ++ (t.unit.map fun u => u.1.letter false).toList

/-- In small letters only the letters of a size can change. -/
theorem map_smallLetter_text :
    t.text.map smallLetter = t.stem ++ (t.byte.map fun _ => 'b').toList := by
  have hNumber : t.number.map smallLetter = t.number := by
    rw [List.map_congr_left fun c hc =>
      Kind.smallLetter_of_isDigit (t.number_digits c hc)]
    exact List.map_id' _
  have hUnit : t.unitText.map smallLetter =
      (t.unit.map fun u => u.1.letter false).toList := by
    rw [unitText]
    cases t.unit with
    | none => rfl
    | some u => simp [smallLetter_letter]
  have hByte : t.byteText.map smallLetter =
      (t.byte.map fun _ => 'b').toList := by
    rw [byteText]
    cases t.byte with
    | none => rfl
    | some b => simp [smallLetter_byteLetter]
  rw [text, List.map_append, List.map_append, hNumber, hUnit, hByte, stem]

/-- A size without its b ends with a digit or a unit letter. -/
theorem dropLast?_stem : dropLast? 'b' t.stem = none := by
  rw [stem]
  cases t.unit with
  | none =>
      rw [Option.map_none, Option.toList_none, List.append_nil]
      exact Kind.dropLast?_of_digits t.number_digits (by decide)
  | some u =>
      have hLetter : u.1.letter false ≠ 'b' := by
        cases u.1 <;> decide
      simp [dropLast?, hLetter]

theorem dropByte_stem :
    (dropLast? 'b' (t.stem ++ (t.byte.map fun _ => 'b').toList)).getD
      (t.stem ++ (t.byte.map fun _ => 'b').toList) = t.stem := by
  cases t.byte with
  | none =>
      rw [Option.map_none, Option.toList_none, List.append_nil,
        t.dropLast?_stem, Option.getD_none]
  | some b =>
      rw [Option.map_some, Option.toList_some, dropLast?_concat,
        Option.getD_some]

theorem sizeParts_stem : sizeParts t.stem = (t.number, 1024 ^ t.power) := by
  rw [stem, power]
  cases t.unit with
  | none =>
      rw [Option.map_none, Option.toList_none, List.append_nil]
      exact sizeParts_digits t.number_digits
  | some u => exact sizeParts_letter t.number u.1

/-- A size is not smaller than its number. -/
theorem number_le_bytes : digitsValue t.number ≤ t.bytes := by
  rw [bytes, ← digitsValue_eq_placeValue]
  exact Nat.le_mul_of_pos_right _ (by positivity)

/-- What a size is read as: the number of bytes that it states, if that fits
into a word. -/
theorem readSize_text :
    readSize t.text =
      if t.bytes < UInt64.size then some (UInt64.ofNat t.bytes) else none := by
  have hBytes : digitsValue t.number * 1024 ^ t.power = t.bytes := by
    rw [bytes, digitsValue_eq_placeValue]
  unfold readSize
  simp only [trim_text, map_smallLetter_text, dropByte_stem, sizeParts_stem]
  rw [Kind.readWord_of_digits t.number_ne_nil t.number_digits]
  by_cases hNumber : digitsValue t.number < UInt64.size
  · have hWord : (UInt64.ofNat (digitsValue t.number)).toNat =
        digitsValue t.number := UInt64.toNat_ofNat_of_lt hNumber
    rw [if_pos hNumber]
    simp only [Option.bind_eq_bind, Option.bind_some, hWord, hBytes]
  · have hLarge : ¬ t.bytes < UInt64.size := by
      have := t.number_le_bytes
      omega
    rw [if_neg hNumber, if_neg hLarge]
    rfl

/-- Sizes with the same number of bytes are read alike. -/
theorem readSize_text_congr {s t : SizeToken} (h : s.bytes = t.bytes) :
    readSize s.text = readSize t.text := by
  rw [readSize_text, readSize_text, h]

/-- Zeros in front of the number and the case of the letters do not count. -/
theorem bytes_congr {s t : SizeToken}
    (hNumber : withoutLeadingZeros s.number = withoutLeadingZeros t.number)
    (hUnit : s.unit.map Prod.fst = t.unit.map Prod.fst) :
    s.bytes = t.bytes := by
  have hPower : ∀ t : SizeToken,
      t.power = ((t.unit.map Prod.fst).map SizeUnit.power).getD 0 := by
    intro t
    rw [power, Option.map_map]
    rfl
  rw [bytes, bytes, hPower s, hPower t, hUnit, ← digitsValue_eq_placeValue,
    ← digitsValue_eq_placeValue, ← digitsValue_withoutLeadingZeros s.number,
    hNumber, digitsValue_withoutLeadingZeros]

/-- A word is read from a size exactly if it is the number of bytes. -/
theorem readSize_text_eq_some_iff (v : UInt64) :
    readSize t.text = some v ↔ v.toNat = t.bytes := by
  rw [readSize_text]
  by_cases hFits : t.bytes < UInt64.size
  · have hWord : (UInt64.ofNat t.bytes).toNat = t.bytes :=
      UInt64.toNat_ofNat_of_lt hFits
    rw [if_pos hFits, Option.some.injEq, ← UInt64.toNat_inj, hWord]
    exact eq_comm
  · rw [if_neg hFits]
    have := v.toNat_lt_size
    constructor
    · exact fun h => absurd h (by simp)
    · omega

theorem readSize_text_eq_none_iff :
    readSize t.text = none ↔ 2 ^ 64 ≤ t.bytes := by
  have hSize : UInt64.size = 2 ^ 64 := rfl
  rw [readSize_text, hSize]
  by_cases hFits : t.bytes < 2 ^ 64
  · rw [if_pos hFits]
    exact iff_of_false (by simp) (by omega)
  · rw [if_neg hFits]
    exact iff_of_true rfl (by omega)

end SizeToken

namespace ValueReader

open ValueMix.Kind

/-- **What sizes are read as.** The pattern of sizes matches digits, then a unit
letter or none, then with a unit the letter b or none. Such a token, and one
with a b but no unit as well, is read as the number of its digits times the
power of 1024 of its unit, if this product is below `2 ^ 64`, and has no value
otherwise. Zeros in front, the case of the letters and the b do not matter. The
decimal text of a word is read as that word, as a size and as an integer. -/
theorem readSize_exact :
    Codec.ofReader size = .ok Kind.size.codec ∧
    (∀ cs, Kind.size.codec.token.accepts cs = true ↔
      ∃ t : SizeToken, (t.byte.isSome → t.unit.isSome) ∧ cs = t.text) ∧
    (∀ (t : SizeToken) (v : UInt64),
      size.read t.text = some v ↔ v.toNat = t.bytes) ∧
    (∀ t : SizeToken, size.read t.text = none ↔ 2 ^ 64 ≤ t.bytes) ∧
    (∀ s t : SizeToken,
      withoutLeadingZeros s.number = withoutLeadingZeros t.number →
      s.unit.map Prod.fst = t.unit.map Prod.fst →
      size.read s.text = size.read t.text) ∧
    ∀ v : UInt64, size.read (toString v).toList = some v ∧
      integer.read (toString v).toList = some v := by
  refine ⟨ofReader_reader .size, ?_, SizeToken.readSize_text_eq_some_iff,
    SizeToken.readSize_text_eq_none_iff, ?_, ?_⟩
  · intro cs
    rw [Pattern.accepts_iff_matches]
    exact matches_size_iff
  · intro s t hNumber hUnit
    exact SizeToken.readSize_text_congr (SizeToken.bytes_congr hNumber hUnit)
  · intro v
    rw [toList_toString_word64]
    have hWord : some (UInt64.ofNat v.toNat) = some v :=
      congrArg some UInt64.ofNat_toNat
    exact ⟨(readSize_digits v.toNat_lt_size).trans hWord,
      (readWord_digits v.toNat_lt_size).trans hWord⟩

/-- The largest number of gigabytes that has a value, with a capital letter, a b
and a zero in front, and the next one. -/
theorem readSize_exact_gigabytes :
    size.read "017179869183GB".toList = size.read "17179869183g".toList ∧
      size.read "17179869183g".toList = some 18446744072635809792 ∧
      size.read "17179869184g".toList = none := by
  have hDigits : ∀ cs : List Char, allDigits cs = true → Digits cs :=
    fun _ h => allDigits_iff.1 h
  let padded : SizeToken :=
    ⟨"017179869183".toList, some (.giga, true), some true,
      by decide, hDigits _ (by decide)⟩
  let last : SizeToken := ⟨"17179869183".toList, some (.giga, false), none,
    by decide, hDigits _ (by decide)⟩
  let next : SizeToken := ⟨"17179869184".toList, some (.giga, false), none,
    by decide, hDigits _ (by decide)⟩
  obtain ⟨-, -, hSome, hNone, hAlike, -⟩ := readSize_exact
  refine ⟨hAlike padded last ?_ rfl, (hSome last _).2 ?_, (hNone next).2 ?_⟩
  · show withoutLeadingZeros "017179869183".toList =
      withoutLeadingZeros "17179869183".toList
    decide
  · show UInt64.toNat 18446744072635809792 =
      placeValue "17179869183".toList * 1024 ^ 3
    decide
  · show 2 ^ 64 ≤ placeValue "17179869184".toList * 1024 ^ 3
    decide

end ValueReader

end ValueMix
