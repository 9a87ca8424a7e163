import Mathlib
import ValueMix.Proofs.Numerals

/-!
# Decimal numbers by their parts

A decimal number has a sign or none, digits, and perhaps a point with further
digits behind it; one digit at least stands somewhere. Its value is that of all
its digits in a row, divided by ten for every digit behind the point. Zeros at
either end do not count.

## Main results

* `digitsValue_eq_placeValue` — the value of a digit string is the sum of its
  digits by place.
* `signedNumeral_iff_form` — numerals are the texts that have such parts.
* `readDecimal_text` — the text of a form is read as its value.
* `readDecimal_exact` — what is read from a text, and what does not matter to
  it.
-/

namespace ValueMix.Text

/-! ## Digit strings -/

/-- The number that a string of digits states: every digit counts by its
distance from the right end. -/
def placeValue (ds : List Char) : ℕ :=
  Nat.ofDigits 10 (ds.reverse.map digitValue)

theorem digitsValue_cons (c : Char) (cs : List Char) :
    digitsValue (c :: cs) = digitValue c * 10 ^ cs.length + digitsValue cs := by
  have hAppend := digitsValue_append [c] cs
  simpa [digitsValue] using hAppend

/-- Reading digits one after another sums them up by place. -/
theorem digitsValue_eq_placeValue (ds : List Char) :
    digitsValue ds = placeValue ds := by
  induction ds with
  | nil => rfl
  | cons d ds ih =>
      rw [digitsValue_cons, ih, placeValue, placeValue, List.reverse_cons,
        List.map_append, Nat.ofDigits_append, List.map_singleton,
        Nat.ofDigits_singleton, List.length_map, List.length_reverse]
      ring

/-- Digits without the zeros in front of them. -/
def withoutLeadingZeros (ds : List Char) : List Char := ds.dropWhile (· == '0')

/-- Digits without the zeros behind them. -/
def withoutTrailingZeros (ds : List Char) : List Char :=
  ds.rdropWhile (· == '0')

theorem digitsValue_withoutLeadingZeros (ds : List Char) :
    digitsValue (withoutLeadingZeros ds) = digitsValue ds := by
  induction ds with
  | nil => rfl
  | cons d ds ih =>
      rw [withoutLeadingZeros, List.dropWhile_cons]
      split
      · rename_i hZero
        obtain rfl : d = '0' := by simpa using hZero
        rw [digitsValue_cons]
        simpa [digitValue, withoutLeadingZeros] using ih
      · rfl

/-- Behind a point, zeros at the end do not count. -/
theorem fraction_withoutTrailingZeros (fs : List Char) :
    (digitsValue (withoutTrailingZeros fs) : ℚ) /
        10 ^ (withoutTrailingZeros fs).length =
      digitsValue fs / 10 ^ fs.length := by
  induction fs using List.reverseRecOn with
  | nil => rfl
  | append_singleton fs d ih =>
      rw [withoutTrailingZeros, List.rdropWhile_concat]
      split
      · rename_i hZero
        obtain rfl : d = '0' := by simpa using hZero
        have hValue : digitsValue (fs ++ ['0']) = digitsValue fs * 10 := by
          rw [digitsValue_append]
          rfl
        rw [withoutTrailingZeros] at ih
        rw [ih, hValue, List.length_append, List.length_singleton, pow_succ]
        push_cast
        field_simp
      · rfl

end ValueMix.Text

namespace ValueMix.Number

open ValueMix.Text

theorem pointValue_withoutZeros (ds fs : List Char) :
    pointValue (withoutLeadingZeros ds) (withoutTrailingZeros fs) =
      pointValue ds fs := by
  rw [pointValue, pointValue, digitsValue_withoutLeadingZeros,
    fraction_withoutTrailingZeros]

/-- The value by place is that of all digits in a row, divided once. -/
theorem pointValue_eq (ds fs : List Char) :
    pointValue ds fs = (digitsValue (ds ++ fs) : ℚ) / 10 ^ fs.length := by
  rw [← mkRat_digits, Nat.pow_eq, Rat.mkRat_eq_div]
  push_cast
  rfl

/-! ## Forms -/

/-- The sign in front of a number. -/
inductive Sign where
  | none
  | plus
  | minus
  deriving DecidableEq

namespace Sign

def text : Sign → List Char
  | none => []
  | plus => ['+']
  | minus => ['-']

def factor : Sign → ℚ
  | none => 1
  | plus => 1
  | minus => -1

end Sign

/-- The parts of a decimal number. -/
structure DecimalForm where
  sign : Sign
  whole : List Char
  point : Bool
  fraction : List Char
  whole_digits : Digits whole
  fraction_digits : Digits fraction
  /-- There is a digit, on one side of the point at least. -/
  some_digit : whole ++ fraction ≠ []
  /-- Without a point no digits stand behind it. -/
  fraction_of_no_point : point = false → fraction = []

namespace DecimalForm

/-- The digits of a form with its point. -/
def body (f : DecimalForm) : List Char :=
  f.whole ++ (if f.point then ['.'] else []) ++ f.fraction

def text (f : DecimalForm) : List Char := f.sign.text ++ f.body

def value (f : DecimalForm) : ℚ :=
  f.sign.factor * (placeValue (f.whole ++ f.fraction) / 10 ^ f.fraction.length)

theorem value_eq (f : DecimalForm) :
    f.value = f.sign.factor * pointValue f.whole f.fraction := by
  rw [value, pointValue_eq, digitsValue_eq_placeValue]

/-- The parts of a form, without its sign, are a numeral. -/
theorem numeral (f : DecimalForm) :
    Numeral f.body (pointValue f.whole f.fraction) := by
  obtain ⟨sign, ds, point, fs, hds, hfs, hSome, hPoint⟩ := f
  cases point with
  | false =>
      obtain rfl := hPoint rfl
      have hne : ds ≠ [] := by simpa using hSome
      have hValue : pointValue ds [] = digitsValue ds := by
        simp [pointValue, digitsValue]
      simpa [body, hValue] using Numeral.whole hne hds
  | true =>
      by_cases hne : ds = []
      · subst hne
        have hSome : fs ≠ [] := by simpa using hSome
        simpa [body] using Numeral.fraction hSome hfs
      · simpa [body] using Numeral.point hne hds hfs

theorem signedNumeral (f : DecimalForm) : SignedNumeral f.text f.value := by
  have hNum := f.numeral
  rw [value_eq, text]
  cases f.sign with
  | none => simpa [Sign.factor, Sign.text] using SignedNumeral.plain hNum
  | plus => simpa [Sign.factor, Sign.text] using SignedNumeral.plus hNum
  | minus => simpa [Sign.factor, Sign.text] using SignedNumeral.minus hNum

/-- The text of a form is read as its value. -/
theorem readDecimal_text (f : DecimalForm) :
    readDecimal f.text = some f.value :=
  readDecimal_eq_some_iff.2
    ⟨f.text, ⟨[], [], blank_nil, blank_nil, by simp⟩, f.signedNumeral⟩

end DecimalForm

/-- Every numeral, with a sign in front, has the parts of a form. -/
theorem Numeral.exists_form {cs : List Char} {q : ℚ} (h : Numeral cs q)
    (sign : Sign) :
    ∃ f : DecimalForm, sign.text ++ cs = f.text ∧
      sign.factor * q = f.value := by
  cases h with
  | whole hne hds =>
      refine ⟨⟨sign, cs, false, [], hds, fun _ h => absurd h List.not_mem_nil,
        by simpa using hne, fun _ => rfl⟩, ?_, ?_⟩
      · simp [DecimalForm.text, DecimalForm.body]
      · simp [DecimalForm.value, digitsValue_eq_placeValue]
  | @point ds fs hne hds hfs =>
      refine ⟨⟨sign, ds, true, fs, hds, hfs, by simp [hne], nofun⟩, ?_, ?_⟩
      · simp [DecimalForm.text, DecimalForm.body]
      · rw [DecimalForm.value_eq]
  | @fraction fs hne hfs =>
      refine ⟨⟨sign, [], true, fs, fun _ h => absurd h List.not_mem_nil, hfs,
        by simpa using hne, nofun⟩, ?_, ?_⟩
      · simp [DecimalForm.text, DecimalForm.body]
      · rw [DecimalForm.value_eq]

/-- Numerals with an optional sign are the texts of forms. -/
theorem signedNumeral_iff_form {cs : List Char} {q : ℚ} :
    SignedNumeral cs q ↔ ∃ f : DecimalForm, cs = f.text ∧ q = f.value := by
  constructor
  · intro h
    cases h with
    | plain hNum => simpa [Sign.text, Sign.factor] using hNum.exists_form .none
    | plus hNum => simpa [Sign.text, Sign.factor] using hNum.exists_form .plus
    | minus hNum => simpa [Sign.text, Sign.factor] using hNum.exists_form .minus
  · rintro ⟨f, rfl, rfl⟩
    exact f.signedNumeral

/-- **What is read as a decimal number.** A text is read if and only if, without
the blanks around it, it is the text of a form, and then its value is the one of
the form. Forms that agree in the factor of their signs and, but for zeros in
front of all digits and behind the last one, in their digits are read alike. -/
theorem readDecimal_exact :
    (∀ (cs : List Char) (q : ℚ),
      readDecimal cs = some q ↔
        ∃ f : DecimalForm, trim cs = f.text ∧ q = f.value) ∧
    ∀ f g : DecimalForm, f.sign.factor = g.sign.factor →
      withoutLeadingZeros f.whole = withoutLeadingZeros g.whole →
      withoutTrailingZeros f.fraction = withoutTrailingZeros g.fraction →
      readDecimal f.text = readDecimal g.text := by
  constructor
  · intro cs q
    rw [readDecimal, readSigned_eq_some_iff, signedNumeral_iff_form]
  · intro f g hSign hWhole hFraction
    rw [f.readDecimal_text, g.readDecimal_text, f.value_eq, g.value_eq, hSign,
      ← pointValue_withoutZeros f.whole, ← pointValue_withoutZeros g.whole,
      hWhole, hFraction]

/-- Zeros at both ends, and no digit in front of the point. -/
theorem readDecimal_exact_padded :
    readDecimal "+00.750".toList = readDecimal ".75".toList ∧
      readDecimal " \t-7. ".toList = some (-7) := by
  have hDigits : ∀ cs : List Char, allDigits cs = true → Digits cs :=
    fun _ h => allDigits_iff.1 h
  constructor
  · exact readDecimal_exact.2
      ⟨.plus, ['0', '0'], true, ['7', '5', '0'], hDigits _ rfl, hDigits _ rfl,
        by decide, by decide⟩
      ⟨.none, [], true, ['7', '5'], hDigits _ rfl, hDigits _ rfl, by decide,
        by decide⟩ rfl rfl rfl
  · refine (readDecimal_exact.1 _ _).2
      ⟨⟨.minus, ['7'], true, [], hDigits _ rfl, hDigits _ rfl, by decide,
        by decide⟩, rfl, ?_⟩
    have hPlace : placeValue ['7'] = 7 := by decide
    norm_num [DecimalForm.value, Sign.factor, hPlace]

end ValueMix.Number
