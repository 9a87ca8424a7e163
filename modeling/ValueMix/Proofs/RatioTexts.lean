import Mathlib
import ValueMix.Error
import ValueMix.Proofs.DecimalForms

/-!
# The text of a rational number

A rational number that has eighteen decimal places or fewer is written as a
decimal number without a digit or a sign too many. Of all decimal numbers with
its value and a digit in front of the point that is the shortest one. Any other
rational number is written as a fraction, which is not read as a decimal number.
So different numbers have different texts.

## Main results

* `Canonical.parts_le`, `Canonical.shortest` — no form of the same value is
  shorter than a canonical one.
* `scaledWhole_eq` — what a scaled text shows in front of its point.
* `exists_canonical_of_places` — a decimal text is the one of a canonical form.
* `ratioText_exact` — the texts of rational numbers, and of the errors that show
  them.
-/

namespace ValueMix.Text

/-! ## Digit strings -/

theorem digitValue_lt {c : Char} (h : c.isDigit = true) :
    digitValue c < 10 := by
  have hBounds := toNat_of_isDigit h
  have hZero : '0'.toNat = 48 := rfl
  rw [digitValue, hZero]
  omega

theorem digitValue_inj {c d : Char} (hc : c.isDigit = true)
    (hd : d.isDigit = true) (h : digitValue c = digitValue d) : c = d := by
  have hc := toNat_of_isDigit hc
  have hd := toNat_of_isDigit hd
  have hZero : '0'.toNat = 48 := rfl
  rw [digitValue, digitValue, hZero] at h
  exact Char.toNat_inj.1 (by omega)

theorem digitsValue_concat (ds : List Char) (d : Char) :
    digitsValue (ds ++ [d]) = digitsValue ds * 10 + digitValue d := by
  have hAppend := digitsValue_append ds [d]
  simpa [digitsValue] using hAppend

/-- A digit string ends in a zero if and only if its value is a multiple of
ten. -/
theorem getLast?_eq_zero_iff {ds : List Char} (h : Digits ds) (hne : ds ≠ []) :
    ds.getLast? = some '0' ↔ 10 ∣ digitsValue ds := by
  obtain ⟨front, d, rfl⟩ := (List.eq_nil_or_concat' ds).resolve_left hne
  have hDigit : d.isDigit = true := h d (by simp)
  have hLt := digitValue_lt hDigit
  have hZero : digitValue '0' = 0 := rfl
  rw [List.getLast?_concat, Option.some_inj, digitsValue_concat]
  constructor
  · rintro rfl
    omega
  · intro hTens
    exact digitValue_inj hDigit (by decide) (by omega)

theorem digitsValue_lt {ds : List Char} (h : Digits ds) :
    digitsValue ds < 10 ^ ds.length := by
  induction ds with
  | nil => decide
  | cons d ds ih =>
      have hd := digitValue_lt (h d (by simp))
      have hRest := ih fun c hc => h c (by simp [hc])
      rw [digitsValue_cons, List.length_cons, pow_succ]
      nlinarith

/-- Digit strings of one length are determined by their value. -/
theorem Digits.eq_of_digitsValue {xs ys : List Char} (hx : Digits xs)
    (hy : Digits ys) (hLength : xs.length = ys.length)
    (h : digitsValue xs = digitsValue ys) : xs = ys := by
  induction xs using List.reverseRecOn generalizing ys with
  | nil => exact (List.length_eq_zero_iff.1 hLength.symm).symm
  | append_singleton xs x ih =>
      rcases List.eq_nil_or_concat' ys with rfl | ⟨ys, y, rfl⟩
      · simp at hLength
      · rw [digitsValue_concat, digitsValue_concat] at h
        have hxDigit : x.isDigit = true := hx x (by simp)
        have hyDigit : y.isDigit = true := hy y (by simp)
        have hxLt := digitValue_lt hxDigit
        have hyLt := digitValue_lt hyDigit
        have hFront : xs = ys :=
          ih (List.forall_mem_append.1 hx).1 (List.forall_mem_append.1 hy).1
            (by simpa using hLength) (by omega)
        rw [hFront, digitValue_inj hxDigit hyDigit (by omega)]

theorem length_digits_le_iff {n k : ℕ} (hk : 0 < k) :
    (digits n).length ≤ k ↔ n < 10 ^ k :=
  Nat.length_toDigits_le_iff (by decide) hk

/-- The digits of a number begin with a zero only if there are no others. -/
theorem digits_of_head?_zero {n : ℕ} (h : (digits n).head? = some '0') :
    digits n = ['0'] := by
  obtain ⟨rest, hDigits⟩ := List.head?_eq_some_iff.1 h
  by_cases hRest : rest = []
  · rw [hDigits, hRest]
  · -- the value is that of the digits behind the zero, which are fewer
    have hValue : n = digitsValue rest := by
      have hDigitsValue := digitsValue_digits n
      rw [hDigits, digitsValue_cons] at hDigitsValue
      simpa [digitValue] using hDigitsValue.symm
    have hAll : Digits ('0' :: rest) := hDigits ▸ digits_digits n
    have hRestDigits : Digits rest :=
      fun c hc => hAll c (List.mem_cons_of_mem _ hc)
    have hLt := digitsValue_lt hRestDigits
    have hPos : 0 < rest.length := List.length_pos_iff.2 hRest
    have hLength := (length_digits_le_iff hPos).2 (hValue ▸ hLt)
    rw [hDigits, List.length_cons] at hLength
    omega

/-- Digits without a zero too many are no more than others of the same value. -/
theorem length_le_of_digitsValue_eq {xs ys : List Char} (hx : Digits xs)
    (hLeading : xs.head? = some '0' → xs = ['0']) (hy : Digits ys)
    (hne : ys ≠ [])
    (h : digitsValue xs = digitsValue ys) : xs.length ≤ ys.length := by
  have hPos : 0 < ys.length := List.length_pos_iff.2 hne
  cases xs with
  | nil => exact Nat.zero_le _
  | cons d ds =>
      by_cases hZero : d = '0'
      · rw [hLeading (by rw [hZero]; rfl)]
        exact hPos
      · have hDigit : 1 ≤ digitValue d := by
          refine Nat.one_le_iff_ne_zero.2 fun hValue => hZero ?_
          exact digitValue_inj (hx d (by simp)) (by decide) hValue
        have hLower : 10 ^ ds.length ≤ digitsValue (d :: ds) := by
          rw [digitsValue_cons]
          nlinarith [Nat.one_le_pow ds.length 10 (by decide)]
        have hUpper := digitsValue_lt hy
        have hPow : 10 ^ ds.length < 10 ^ ys.length := by omega
        exact Nat.succ_le_of_lt ((Nat.pow_lt_pow_iff_right (by decide)).1 hPow)

end ValueMix.Text

namespace ValueMix.Number

open ValueMix.Text

/-! ## Canonical forms -/

theorem floor_pointValue {ds fs : List Char} (h : Digits fs) :
    ⌊pointValue ds fs⌋₊ = digitsValue ds := by
  have hPow : (0 : ℚ) < 10 ^ fs.length := by positivity
  have hLt : (digitsValue fs : ℚ) < 10 ^ fs.length := by
    exact_mod_cast digitsValue_lt h
  have hFraction : (digitsValue fs : ℚ) / 10 ^ fs.length < 1 :=
    (div_lt_one hPow).2 hLt
  have hNonneg : (0 : ℚ) ≤ digitsValue fs / 10 ^ fs.length := by positivity
  rw [pointValue, Nat.floor_eq_iff (by positivity)]
  constructor <;> linarith

namespace DecimalForm

variable {f g : DecimalForm}

theorem length_text (f : DecimalForm) :
    f.text.length = f.sign.text.length + f.whole.length +
      (if f.point then 1 else 0) + f.fraction.length := by
  rw [text, body, List.length_append, List.length_append, List.length_append]
  split <;> simp only [List.length_nil, List.length_singleton] <;> omega

theorem pointValue_nonneg (ds fs : List Char) : 0 ≤ pointValue ds fs := by
  rw [pointValue]
  positivity

theorem abs_value (f : DecimalForm) :
    |f.value| = pointValue f.whole f.fraction := by
  have hNonneg := abs_of_nonneg (pointValue_nonneg f.whole f.fraction)
  rw [value_eq]
  cases f.sign <;> simp [Sign.factor, hNonneg]

theorem sign_of_value_neg (h : f.value < 0) : f.sign = .minus := by
  have hNonneg := pointValue_nonneg f.whole f.fraction
  rw [value_eq] at h
  cases hSign : f.sign with
  | minus => rfl
  | none =>
      rw [hSign, Sign.factor, one_mul] at h
      exact absurd h (not_lt.2 hNonneg)
  | plus =>
      rw [hSign, Sign.factor, one_mul] at h
      exact absurd h (not_lt.2 hNonneg)

/-- A form without a sign, a zero or a point too many. -/
structure Canonical (f : DecimalForm) : Prop where
  sign : f.sign = if f.value < 0 then .minus else .none
  whole_ne_nil : f.whole ≠ []
  leading : f.whole.head? = some '0' → f.whole = ['0']
  trailing : f.fraction.getLast? ≠ some '0'
  fraction_ne_nil : f.point = true → f.fraction ≠ []

theorem digitsValue_whole_eq (h : g.value = f.value) :
    digitsValue g.whole = digitsValue f.whole := by
  rw [← floor_pointValue g.fraction_digits,
    ← floor_pointValue f.fraction_digits, ← abs_value, ← abs_value, h]

/-- All digits in a row, brought to the same number of places. -/
theorem digitsValue_mul_pow (h : g.value = f.value) :
    digitsValue (f.whole ++ f.fraction) * 10 ^ g.fraction.length =
      digitsValue (g.whole ++ g.fraction) * 10 ^ f.fraction.length := by
  have hAbs : pointValue f.whole f.fraction =
      pointValue g.whole g.fraction := by
    rw [← abs_value, ← abs_value, h]
  rw [pointValue_eq, pointValue_eq,
    div_eq_div_iff (by positivity) (by positivity)] at hAbs
  exact_mod_cast hAbs

/-- Without a zero at the end there are no more places than needed. -/
theorem length_fraction_le (hf : f.fraction.getLast? ≠ some '0')
    (h : g.value = f.value) : f.fraction.length ≤ g.fraction.length := by
  by_contra hLess
  obtain ⟨k, hk⟩ := Nat.exists_eq_add_of_lt (not_le.1 hLess)
  have hne : f.fraction ≠ [] := List.ne_nil_of_length_eq_add_one hk
  have hTens : digitsValue (f.whole ++ f.fraction) =
      digitsValue (g.whole ++ g.fraction) * 10 ^ k * 10 := by
    have hPow : 0 < 10 ^ g.fraction.length := by positivity
    refine Nat.eq_of_mul_eq_mul_right hPow ((digitsValue_mul_pow h).trans ?_)
    rw [hk]
    ring
  have hLast := (getLast?_eq_zero_iff (f.whole_digits.append f.fraction_digits)
    (List.append_ne_nil_of_right_ne_nil _ hne)).2 (Dvd.intro_left _ hTens.symm)
  rw [List.getLast?_append_of_ne_nil _ hne] at hLast
  exact hf hLast

/-- No part of a canonical form is longer than in another form of its value. -/
theorem Canonical.parts_le (hf : f.Canonical) (hg : g.whole ≠ [])
    (h : g.value = f.value) :
    (f.sign = .none ∨ f.sign = .minus ∧ g.sign = .minus) ∧
      f.whole.length ≤ g.whole.length ∧ (f.point = true → g.point = true) ∧
      f.fraction.length ≤ g.fraction.length := by
  have hLength := length_fraction_le hf.trailing h
  refine ⟨?_, ?_, ?_, hLength⟩
  · have hSign := hf.sign
    by_cases hNeg : f.value < 0
    · rw [if_pos hNeg] at hSign
      exact .inr ⟨hSign, sign_of_value_neg (h ▸ hNeg)⟩
    · rw [if_neg hNeg] at hSign
      exact .inl hSign
  · exact length_le_of_digitsValue_eq f.whole_digits hf.leading g.whole_digits
      hg (digitsValue_whole_eq h).symm
  · intro hPoint
    by_contra hNone
    rw [Bool.not_eq_true] at hNone
    rw [g.fraction_of_no_point hNone, List.length_nil, Nat.le_zero,
      List.length_eq_zero_iff] at hLength
    exact hf.fraction_ne_nil hPoint hLength

theorem Canonical.lengths_le (hf : f.Canonical) (hg : g.whole ≠ [])
    (h : g.value = f.value) :
    f.sign.text.length ≤ g.sign.text.length ∧ f.whole.length ≤ g.whole.length ∧
      (if f.point then 1 else 0) ≤ (if g.point then 1 else 0) ∧
      f.fraction.length ≤ g.fraction.length := by
  obtain ⟨hSign, hWhole, hPoint, hFraction⟩ := hf.parts_le hg h
  refine ⟨?_, hWhole, ?_, hFraction⟩
  · rcases hSign with hNone | ⟨hMinus, hMinus'⟩
    · rw [hNone]
      exact Nat.zero_le _
    · rw [hMinus, hMinus']
  · split_ifs with hf' hg'
    · exact le_rfl
    · exact absurd (hPoint hf') hg'
    · exact Nat.zero_le _
    · exact le_rfl

/-- Forms of one value with equally many digits on both sides of the point have
the same digits. -/
theorem digits_eq_of_lengths (h : g.value = f.value)
    (hWhole : g.whole.length = f.whole.length)
    (hFraction : g.fraction.length = f.fraction.length) :
    g.whole = f.whole ∧ g.fraction = f.fraction := by
  have hWholeEq : g.whole = f.whole :=
    g.whole_digits.eq_of_digitsValue f.whole_digits hWhole
      (digitsValue_whole_eq h)
  have hScaled := digitsValue_mul_pow h
  rw [hFraction, Nat.mul_left_inj (by positivity), hWholeEq, digitsValue_append,
    digitsValue_append, hFraction, Nat.add_left_cancel_iff] at hScaled
  exact ⟨hWholeEq,
    g.fraction_digits.eq_of_digitsValue f.fraction_digits hFraction
    hScaled.symm⟩

/-- Another form of the same length does not differ from a canonical one. -/
theorem Canonical.text_eq (hf : f.Canonical) (hg : g.whole ≠ [])
    (h : g.value = f.value) (hLength : g.text.length = f.text.length) :
    g.text = f.text := by
  obtain ⟨hSignLe, hWholeLe, hPointLe, hFractionLe⟩ := hf.lengths_le hg h
  obtain ⟨hSign, -, hPoint, -⟩ := hf.parts_le hg h
  -- no part is longer in `f`, so all of them are equally long
  rw [f.length_text, g.length_text] at hLength
  obtain ⟨hWholeEq, hFractionEq⟩ :=
    digits_eq_of_lengths h (by omega) (by omega)
  have hPointEq : g.point = f.point := by
    cases hf' : f.point with
    | true => exact hPoint hf'
    | false =>
        cases hg' : g.point with
        | false => rfl
        | true =>
            simp only [hf', hg', if_true, Bool.false_eq_true,
              if_false] at hLength
            omega
  have hSignEq : g.sign.text = f.sign.text := by
    rcases hSign with hNone | ⟨hMinus, hMinus'⟩
    · have hNoneText : f.sign.text = [] := by
        rw [hNone]
        rfl
      have hLengthEq : g.sign.text.length = f.sign.text.length := by omega
      rw [hNoneText] at hLengthEq ⊢
      exact List.length_eq_zero_iff.1 hLengthEq
    · rw [hMinus, hMinus']
  rw [text, text, body, body, hWholeEq, hFractionEq, hPointEq, hSignEq]

/-- A canonical form is the shortest one of its value with a digit in front of
the point, and the only one of its length. -/
theorem Canonical.shortest (hf : f.Canonical) (hg : g.whole ≠ [])
    (h : g.value = f.value) :
    f.text.length ≤ g.text.length ∧
      (g.text.length = f.text.length → g.text = f.text) := by
  refine ⟨?_, hf.text_eq hg h⟩
  obtain ⟨hSign, hWhole, hPoint, hFraction⟩ := hf.lengths_le hg h
  rw [f.length_text, g.length_text]
  omega

end DecimalForm

/-! ## Scaled texts -/

section Padding

variable (n k : ℕ)

/-- The digits of a number that is to be divided by a power of ten, with a digit
to stand in front of the point. -/
def scaledDigits : List Char := zeroPadded (k + 1) (digits n)

theorem digits_scaledDigits : Digits (scaledDigits n k) :=
  (digits_zeros _).append (digits_digits n)

theorem digitsValue_scaledDigits : digitsValue (scaledDigits n k) = n := by
  have hZeros : ∀ j : ℕ, digitsValue (List.replicate j '0') = 0 := by
    intro j
    rw [digitsValue_eq, Nat.ofDigitChars_replicate_zero, Nat.mul_zero]
  rw [scaledDigits, zeroPadded, digitsValue_append, hZeros, digitsValue_digits]
  simp

theorem length_scaledDigits :
    (scaledDigits n k).length = max (k + 1) (digits n).length := by
  rw [scaledDigits, zeroPadded, List.length_append, List.length_replicate]
  omega

/-- The digits in front of the point. -/
def scaledWhole : List Char :=
  (scaledDigits n k).take ((scaledDigits n k).length - k)

/-- The digits behind the point. -/
def scaledFraction : List Char :=
  (scaledDigits n k).drop ((scaledDigits n k).length - k)

theorem scaledWhole_append_scaledFraction :
    scaledWhole n k ++ scaledFraction n k = scaledDigits n k :=
  List.take_append_drop _ _

theorem length_scaledFraction : (scaledFraction n k).length = k := by
  rw [scaledFraction, List.length_drop, length_scaledDigits]
  omega

theorem digits_scaledWhole : Digits (scaledWhole n k) := fun c hc =>
  digits_scaledDigits n k c (List.mem_of_mem_take hc)

theorem digits_scaledFraction : Digits (scaledFraction n k) := fun c hc =>
  digits_scaledDigits n k c (List.mem_of_mem_drop hc)

/-- The digits in front of the point are those of the integer part. -/
theorem scaledWhole_eq : scaledWhole n k = digits (n / 10 ^ k) := by
  have hValue : digitsValue (scaledWhole n k) = n / 10 ^ k := by
    have hLt := digitsValue_lt (digits_scaledFraction n k)
    have hSplit := digitsValue_append (scaledWhole n k) (scaledFraction n k)
    rw [length_scaledFraction] at hLt hSplit
    rw [scaledWhole_append_scaledFraction, digitsValue_scaledDigits] at hSplit
    generalize digitsValue (scaledWhole n k) = whole at hSplit ⊢
    rw [hSplit, Nat.add_comm, Nat.add_mul_div_right _ _ (by positivity),
      Nat.div_eq_of_lt hLt, Nat.zero_add]
  have hWhole : (scaledWhole n k).length =
      max (k + 1) (digits n).length - k := by
    rw [scaledWhole, List.length_take, length_scaledDigits]
    omega
  refine (digits_scaledWhole n k).eq_of_digitsValue (digits_digits _) ?_
    (hValue.trans (digitsValue_digits _).symm)
  apply le_antisymm
  · -- a shorter integer part would leave fewer digits to the whole number
    have hPos := List.length_pos_iff.2 (digits_ne_nil (n / 10 ^ k))
    have hLt := (length_digits_le_iff hPos).1 le_rfl
    rw [Nat.div_lt_iff_lt_mul (by positivity), ← pow_add] at hLt
    have hDigits := (length_digits_le_iff (by omega)).2 hLt
    omega
  · refine (length_digits_le_iff (by omega)).2 ?_
    rw [← hValue]
    exact digitsValue_lt (digits_scaledWhole n k)

end Padding

/-- The parts of a scaled text. -/
def scaledForm (negative : Bool) (n k : ℕ) : DecimalForm where
  sign := if negative then .minus else .none
  whole := scaledWhole n k
  point := k != 0
  fraction := scaledFraction n k
  whole_digits := digits_scaledWhole n k
  fraction_digits := digits_scaledFraction n k
  some_digit := by
    rw [scaledWhole_eq]
    simp [digits_ne_nil]
  fraction_of_no_point := by
    intro h
    have hZero : k = 0 := by simpa using h
    rw [← List.length_eq_zero_iff, length_scaledFraction, hZero]

theorem toList_scaledText (negative : Bool) (n k : ℕ) :
    (signed negative (scaledText n k)).toList =
      (scaledForm negative n k).text := by
  have hText : (scaledText n k).toList = (scaledForm negative n k).body := by
    show (if k = 0 then String.ofList (scaledWhole n k)
      else String.ofList
        (scaledWhole n k ++ '.' :: scaledFraction n k)).toList = _
    by_cases hk : k = 0
    · subst hk
      have hNone : scaledFraction n 0 = [] := by
        rw [← List.length_eq_zero_iff, length_scaledFraction]
      simp [DecimalForm.body, scaledForm, hNone]
    · simp [DecimalForm.body, scaledForm, hk]
  cases negative with
  | false => exact hText
  | true =>
      rw [signed, if_pos rfl, String.toList_append, hText]
      rfl

theorem value_scaledForm (negative : Bool) (n k : ℕ) :
    (scaledForm negative n k).value =
      (if negative then -1 else 1) * ((n : ℚ) / 10 ^ k) := by
  have hDigits : placeValue (scaledWhole n k ++ scaledFraction n k) = n := by
    rw [← digitsValue_eq_placeValue, scaledWhole_append_scaledFraction,
      digitsValue_scaledDigits]
  show (scaledForm negative n k).sign.factor *
    (placeValue (scaledWhole n k ++ scaledFraction n k) /
      10 ^ (scaledFraction n k).length) = _
  rw [hDigits, length_scaledFraction]
  cases negative <;> rfl

/-! ## Decimal places -/

theorem den_eq_one_iff {q : ℚ} : q.den = 1 ↔ ∃ z : ℤ, q = z := by
  constructor
  · intro h
    exact ⟨q.num, ((Rat.den_eq_one_iff q).1 h).symm⟩
  · rintro ⟨z, rfl⟩
    rfl

/-- A number has some decimal places if it has fewer. -/
theorem exists_int_of_le {q : ℚ} {j k : ℕ} (hjk : j ≤ k)
    (h : ∃ z : ℤ, q * 10 ^ j = z) : ∃ z : ℤ, q * 10 ^ k = z := by
  obtain ⟨z, hz⟩ := h
  refine ⟨z * 10 ^ (k - j), ?_⟩
  rw [← Nat.add_sub_cancel' hjk, pow_add, ← mul_assoc, hz]
  simp

theorem places?_eq_some_iff {q : ℚ} {k : ℕ} :
    places? q = some k ↔ k ≤ 18 ∧ (∃ z : ℤ, q * 10 ^ k = z) ∧
      ∀ j < k, ¬ ∃ z : ℤ, q * 10 ^ j = z := by
  rw [places?, List.find?_range_eq_some, List.mem_range]
  simp only [beq_iff_eq, Bool.not_eq_true', beq_eq_false_iff_ne, ne_eq,
    den_eq_one_iff, placesLimit, Nat.lt_succ_iff]
  tauto

theorem places?_eq_none_iff {q : ℚ} :
    places? q = none ↔ ¬ ∃ z : ℤ, q * 10 ^ 18 = z := by
  rw [places?, List.find?_range_eq_none]
  simp only [Bool.not_eq_true', beq_eq_false_iff_ne, ne_eq, den_eq_one_iff,
    placesLimit, Nat.lt_succ_iff]
  constructor
  · intro h
    exact h 18 le_rfl
  · intro h k hk hInt
    exact h (exists_int_of_le hk hInt)

/-! ## Decimal texts -/

section Decimal

variable {q : ℚ} {k : ℕ}

/-- A number with its decimal places as digits, and its sign in front. -/
theorem signed_natAbs_div (h : ∃ z : ℤ, q * 10 ^ k = z) :
    (if decide (q < 0) then -1 else 1) *
      (((q * 10 ^ k).num.natAbs : ℚ) / 10 ^ k) = q := by
  have hPow : (0 : ℚ) < 10 ^ k := by positivity
  have hNum : ((q * 10 ^ k).num : ℚ) = q * 10 ^ k :=
    (Rat.den_eq_one_iff _).1 (den_eq_one_iff.2 h)
  have hAbs : ((q * 10 ^ k).num.natAbs : ℚ) / 10 ^ k = |q| := by
    rw [Nat.cast_natAbs, Int.cast_abs, hNum, abs_mul, abs_of_pos hPow,
      mul_div_cancel_right₀ _ hPow.ne']
  rw [hAbs]
  by_cases hNeg : q < 0
  · simp [hNeg, abs_of_neg hNeg]
  · simp [hNeg, abs_of_nonneg (not_lt.1 hNeg)]

/-- If the last digit of a scaled number is a zero, fewer places are enough. -/
theorem exists_int_of_trailing_zero {n : ℕ} {sign : ℤ}
    (hq : q = sign * ((n : ℚ) / 10 ^ k))
    (h : (scaledFraction n k).getLast? = some '0') :
    ∃ j < k, ∃ z : ℤ, q * 10 ^ j = z := by
  have hne : scaledFraction n k ≠ [] := by
    intro hNone
    rw [hNone] at h
    cases h
  have hk : k ≠ 0 := by
    rwa [← length_scaledFraction n k, Ne, List.length_eq_zero_iff]
  obtain ⟨j, rfl⟩ := Nat.exists_eq_succ_of_ne_zero hk
  obtain ⟨m, rfl⟩ : 10 ∣ n := by
    rw [← digitsValue_scaledDigits n (j + 1),
      ← getLast?_eq_zero_iff (digits_scaledDigits _ _),
      ← scaledWhole_append_scaledFraction, List.getLast?_append_of_ne_nil _ hne]
    · exact h
    · rw [← scaledWhole_append_scaledFraction]
      exact List.append_ne_nil_of_right_ne_nil _ hne
  refine ⟨j, Nat.lt_succ_self j, sign * m, ?_⟩
  rw [hq, pow_succ]
  push_cast
  field_simp

/-- A number with few enough places is written as a canonical form. -/
theorem exists_canonical_of_places (h : places? q = some k) :
    ∃ f : DecimalForm, (ratioText q).toList = f.text ∧ f.value = q ∧
      f.Canonical ∧ (f.point = true ↔ k ≠ 0) := by
  obtain ⟨-, hInt, hLeast⟩ := places?_eq_some_iff.1 h
  have hSigned := signed_natAbs_div hInt
  generalize hn : (q * 10 ^ k).num.natAbs = n at hSigned
  have hText : (ratioText q).toList =
      (scaledForm (decide (q < 0)) n k).text := by
    rw [ratioText, h, ← hn]
    exact toList_scaledText _ _ _
  have hValue : (scaledForm (decide (q < 0)) n k).value = q := by
    rw [value_scaledForm, hSigned]
  refine ⟨_, hText, hValue, ⟨?_, ?_, ?_, ?_, ?_⟩, by simp [scaledForm]⟩
  · rw [hValue]
    simp [scaledForm]
  · show scaledWhole n k ≠ []
    rw [scaledWhole_eq]
    exact digits_ne_nil _
  · show (scaledWhole n k).head? = some '0' → scaledWhole n k = ['0']
    rw [scaledWhole_eq]
    exact digits_of_head?_zero
  · intro hZero
    have hq : q = ((if decide (q < 0) then -1 else 1 : ℤ) : ℚ) *
        ((n : ℚ) / 10 ^ k) := by
      refine hSigned.symm.trans (congrArg (· * ((n : ℚ) / 10 ^ k)) ?_)
      split_ifs <;> simp
    obtain ⟨j, hj, hFewer⟩ := exists_int_of_trailing_zero hq hZero
    exact hLeast j hj hFewer
  · intro hPoint hNone
    have hLength := length_scaledFraction n k
    rw [show scaledFraction n k = [] from hNone] at hLength
    have hk : k ≠ 0 := by simpa [scaledForm] using hPoint
    exact hk hLength.symm

theorem point_iff (h : places? q = some k) : k ≠ 0 ↔ ¬ ∃ z : ℤ, q = z := by
  obtain ⟨-, hInt, hLeast⟩ := places?_eq_some_iff.1 h
  constructor
  · intro hk hWhole
    refine hLeast 0 (Nat.pos_of_ne_zero hk) ?_
    simpa using hWhole
  · rintro hFraction rfl
    exact hFraction (by simpa using hInt)

end Decimal

/-! ## Fractions -/

theorem signedNumeral_int (z : ℤ) : SignedNumeral (toString z).toList z := by
  have hNat : ∀ n : ℕ, Numeral (toString n).toList (n : ℚ) := by
    intro n
    rw [toList_toString_nat]
    have hNum := Numeral.whole (digits_ne_nil n) (digits_digits n)
    rwa [digitsValue_digits] at hNum
  cases z with
  | ofNat n => exact .plain (hNat n)
  | negSucc n =>
      have hText : toString (Int.negSucc n) = "-" ++ toString (n + 1) := rfl
      rw [hText, String.toList_append, Int.cast_negSucc]
      exact .minus (hNat (n + 1))

theorem slash_not_mem_int (z : ℤ) : '/' ∉ (toString z).toList := by
  intro hMem
  have hChar := (signedNumeral_int z).isNumeralChar '/' hMem
  revert hChar
  unfold IsNumeralChar
  decide

/-- The text of a fraction is not read as a decimal number. -/
theorem readDecimal_slash {front back : List Char} :
    readDecimal (front ++ '/' :: back) = none := by
  rw [Option.eq_none_iff_forall_ne_some]
  intro q hRead
  obtain ⟨n, hPad, hNum⟩ := readDecimal_eq_some_iff.1 hRead
  have hSlash : isBlank '/' = true ∨ IsNumeralChar '/' :=
    hPad.forall_mem (P := fun c => isBlank c = true ∨ IsNumeralChar c)
      (fun _ h => .inl h) (fun c hc => .inr (hNum.isNumeralChar c hc)) '/'
      (by simp)
  revert hSlash
  unfold IsNumeralChar
  decide

theorem ratioText_of_no_places {q : ℚ} (h : places? q = none) :
    ratioText q = toString q.num ++ "/" ++ toString q.den := by
  rw [ratioText, h]

theorem toList_ratioText_of_no_places {q : ℚ} (h : places? q = none) :
    (ratioText q).toList =
      (toString q.num).toList ++ '/' :: digits q.den := by
  rw [ratioText_of_no_places h, String.toList_append, String.toList_append,
    toList_toString_nat, List.append_assoc]
  rfl

/-- A fraction in lowest terms is determined by its text. -/
theorem eq_of_fraction_texts {p q : ℚ}
    (h : (toString p.num).toList ++ '/' :: digits p.den =
      (toString q.num).toList ++ '/' :: digits q.den) : p = q := by
  have hFront := congrArg (before '/') h
  rw [before_append (slash_not_mem_int _), before_append (slash_not_mem_int _)]
    at hFront
  have hBack := congrArg (after '/') h
  rw [after_append (slash_not_mem_int _), after_append (slash_not_mem_int _)]
    at hBack
  have hNum : (p.num : ℚ) = q.num := by
    have hp := readSigned_eq_some_iff.2 (signedNumeral_int p.num)
    have hq := readSigned_eq_some_iff.2 (signedNumeral_int q.num)
    rw [hFront] at hp
    exact Option.some.inj (hp.symm.trans hq)
  have hDen : p.den = q.den := by
    rw [← digitsValue_digits p.den, ← digitsValue_digits q.den, hBack]
  exact Rat.ext (by exact_mod_cast hNum) hDen

/-! ## Main result -/

theorem readDecimal_ratioText (q : ℚ) :
    readDecimal (ratioText q).toList =
      if (places? q).isSome then some q else none := by
  cases h : places? q with
  | some k =>
      obtain ⟨f, hText, hValue, -⟩ := exists_canonical_of_places h
      rw [hText, f.readDecimal_text, hValue]
      rfl
  | none =>
      rw [toList_ratioText_of_no_places h]
      exact readDecimal_slash

theorem ratioText_injective : Function.Injective ratioText := by
  intro p q hText
  have hRead := readDecimal_ratioText p
  rw [hText, readDecimal_ratioText] at hRead
  cases hp : places? p with
  | some j =>
      cases hq : places? q with
      | some k =>
          rw [hp, hq] at hRead
          exact (Option.some.inj hRead).symm
      | none =>
          rw [hp, hq] at hRead
          cases hRead
  | none =>
      cases hq : places? q with
      | some k =>
          rw [hp, hq] at hRead
          cases hRead
      | none =>
          apply eq_of_fraction_texts
          rw [← toList_ratioText_of_no_places hp, hText,
            toList_ratioText_of_no_places hq]

theorem exists_places {q : ℚ} (h : ∃ z : ℤ, q * 10 ^ 18 = z) :
    ∃ k, places? q = some k := by
  rw [← Option.isSome_iff_exists, Option.isSome_iff_ne_none]
  exact fun hNone => places?_eq_none_iff.1 hNone h

/-- A number is written as a decimal number only if it has few enough places. -/
theorem decimal_ratioText_iff {q : ℚ} :
    (∃ f : DecimalForm, (ratioText q).toList = f.text) ↔
      ∃ z : ℤ, q * 10 ^ 18 = z := by
  constructor
  · rintro ⟨f, hText⟩
    by_contra hNone
    have hRead := readDecimal_ratioText q
    rw [hText, f.readDecimal_text, places?_eq_none_iff.2 hNone] at hRead
    cases hRead
  · intro hInt
    obtain ⟨k, h⟩ := exists_places hInt
    obtain ⟨f, hText, -⟩ := exists_canonical_of_places h
    exact ⟨f, hText⟩

theorem message_injective :
    ∀ e ∈ ([.invalidWeight, .invalidProbability, .overfull, .incomplete] :
      List (ℚ → Error)), Function.Injective fun q : ℚ => (e q).message := by
  have hBetween : ∀ (before after : String) {p q : ℚ},
      before ++ ratioText p ++ after = before ++ ratioText q ++ after →
        p = q := by
    intro before after p q hText
    exact ratioText_injective (by simpa using hText)
  simp only [List.forall_mem_cons, List.not_mem_nil, false_imp_iff,
    implies_true, and_true]
  refine ⟨?_, ?_, ?_, ?_⟩ <;> exact fun p q hMessage => hBetween _ _ hMessage

/-- **The text of a rational number.** It is a decimal number if and only if
eighteen places are enough for the number. Then it is read as that number and
has neither a zero at its end behind a point nor a point in an integer; among
the decimal numbers of its value with a digit in front of the point it is the
shortest. Any other number is written as a reduced fraction, which is not read.
Different numbers have different texts, also within the message of an error. -/
theorem ratioText_exact :
    (∀ q : ℚ, (∃ f : DecimalForm, (ratioText q).toList = f.text) ↔
      ∃ z : ℤ, q * 10 ^ 18 = z) ∧
    (∀ q : ℚ, (∃ z : ℤ, q * 10 ^ 18 = z) →
      readDecimal (ratioText q).toList = some q ∧
      ∃ f : DecimalForm, (ratioText q).toList = f.text ∧ f.value = q ∧
        f.whole ≠ [] ∧ f.fraction.getLast? ≠ some '0' ∧
        (f.point = true ↔ ¬ ∃ z : ℤ, q = z) ∧
        ∀ g : DecimalForm, g.whole ≠ [] → g.value = q →
          f.text.length ≤ g.text.length ∧
            (g.text.length = f.text.length → g.text = f.text)) ∧
    (∀ q : ℚ, (¬ ∃ z : ℤ, q * 10 ^ 18 = z) →
      ratioText q = toString q.num ++ "/" ++ toString q.den ∧
      readDecimal (ratioText q).toList = none) ∧
    Function.Injective ratioText ∧
    ∀ e ∈ ([.invalidWeight, .invalidProbability, .overfull, .incomplete] :
      List (ℚ → Error)), Function.Injective fun q : ℚ => (e q).message := by
  refine ⟨fun q => decimal_ratioText_iff, ?_, ?_, ratioText_injective,
    message_injective⟩
  · intro q hInt
    obtain ⟨k, h⟩ := exists_places hInt
    obtain ⟨f, hText, hValue, hCanonical, hPoint⟩ :=
      exists_canonical_of_places h
    refine ⟨?_, f, hText, hValue, hCanonical.whole_ne_nil, hCanonical.trailing,
      hPoint.trans (point_iff h), fun g hg hSame => ?_⟩
    · rw [hText, f.readDecimal_text, hValue]
    · exact hCanonical.shortest hg (hSame.trans hValue.symm)
  · intro q hNone
    have h := places?_eq_none_iff.2 hNone
    refine ⟨ratioText_of_no_places h, ?_⟩
    rw [toList_ratioText_of_no_places h]
    exact readDecimal_slash

/-- An eighth has three places, a third has too many. -/
theorem ratioText_exact_eighth :
    readDecimal (ratioText (-1 / 8)).toList = some (-1 / 8) ∧
      readDecimal (ratioText (1 / 3)).toList = none := by
  obtain ⟨-, hDecimal, hFraction, -, -⟩ := ratioText_exact
  have hThird : ¬ ∃ z : ℤ, (1 / 3 : ℚ) * 10 ^ 18 = z := by
    rintro ⟨z, hz⟩
    have hThrice : (10 ^ 18 : ℚ) = 3 * z := by
      rw [← hz]
      ring
    have hInt : (10 ^ 18 : ℤ) = 3 * z := by exact_mod_cast hThrice
    omega
  exact ⟨(hDecimal (-1 / 8) ⟨-125 * 10 ^ 15, by norm_num⟩).1,
    (hFraction (1 / 3) hThird).2⟩

end ValueMix.Number
