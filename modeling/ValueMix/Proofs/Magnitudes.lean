import Mathlib
import ValueMix.Binary64.Threshold

/-!
# The order of binary64 numbers

Between two neighbouring magnitudes the value grows by one step of their
binade. So values are strictly increasing in the magnitude, across
subnormal numbers and binade boundaries alike, and comparing numbers by
their place is comparing them by value.

## Main results

* `valueOf_strictMono` — larger magnitudes have larger values.
* `toRat_le_iff` — `Binary64.le` is the order of the exact values, on
  finite numbers.
-/

namespace ValueMix.Binary64

/-! ## Values in units of the least positive number -/

/-- The value of a magnitude in units of `2 ^ -1074`. -/
def units (m : Nat) : Nat := significand m * 2 ^ scale m

theorem valueOf_eq_units (m : Nat) : valueOf m = (units m : ℚ) / 2 ^ 1074 := by
  unfold valueOf units
  simp only [Nat.pow_eq]
  split
  · rename_i h
    have hsplit : (2 : ℚ) ^ 1074 = 2 ^ (1074 - scale m) * 2 ^ scale m := by
      rw [← pow_add]
      congr 1
      omega
    rw [Rat.mkRat_eq_div, hsplit]
    push_cast
    have hpos : (2 : ℚ) ^ scale m ≠ 0 := by positivity
    rw [mul_div_mul_right _ _ hpos]
  · rename_i h
    have hsplit : (2 : ℚ) ^ scale m = 2 ^ (scale m - 1074) * 2 ^ 1074 := by
      rw [← pow_add]
      congr 1
      omega
    push_cast
    rw [hsplit, ← mul_assoc, mul_div_cancel_right₀]
    positivity

theorem fractionCount_eq : fractionCount = 2 ^ 52 := rfl

private theorem significand_of_subnormal {m : Nat} (h : m < 2 ^ 52) :
    significand m = m := by
  have hField : exponentField m = 0 := Nat.div_eq_of_lt h
  rw [significand, if_pos hField]

private theorem significand_of_normal {m : Nat} (h : 2 ^ 52 ≤ m) :
    significand m = 2 ^ 52 + m % 2 ^ 52 := by
  have hField : exponentField m ≠ 0 := by
    unfold exponentField
    rw [fractionCount_eq]
    omega
  rw [significand, if_neg hField, fractionCount_eq]

theorem significand_lt (m : Nat) : significand m < 2 ^ 53 := by
  rcases Nat.lt_or_ge m (2 ^ 52) with hlow | hhigh
  · rw [significand_of_subnormal hlow]
    omega
  · rw [significand_of_normal hhigh]
    omega

/-- Only in the lowest binade are there small significands. -/
theorem scale_eq_zero_or_le_significand (m : Nat) :
    scale m = 0 ∨ 2 ^ 52 ≤ significand m := by
  rcases Nat.lt_or_ge m (2 ^ 52) with hlow | hhigh
  · left
    unfold scale exponentField
    rw [fractionCount_eq]
    omega
  · right
    rw [significand_of_normal hhigh]
    omega

/-- A magnitude is its scale and its significand, one on top of the other. -/
theorem scale_mul_add_significand (m : Nat) :
    scale m * 2 ^ 52 + significand m = m := by
  unfold scale exponentField
  rw [fractionCount_eq]
  rcases Nat.lt_or_ge m (2 ^ 52) with hlow | hhigh
  · rw [significand_of_subnormal hlow]
    omega
  · rw [significand_of_normal hhigh]
    omega

/-- The magnitude of a scale and a significand. -/
theorem units_mul_add {j s : Nat} (hs : s < 2 ^ 53) (h : j = 0 ∨ 2 ^ 52 ≤ s) :
    units (j * 2 ^ 52 + s) = s * 2 ^ j := by
  rcases Nat.lt_or_ge s (2 ^ 52) with hlow | hhigh
  · obtain rfl : j = 0 := h.resolve_right (by omega)
    have hscale : scale (0 * 2 ^ 52 + s) = 0 := by
      unfold scale exponentField
      rw [fractionCount_eq]
      omega
    rw [units, hscale, significand_of_subnormal (by omega)]
    omega
  · have hscale : scale (j * 2 ^ 52 + s) = j := by
      unfold scale exponentField
      rw [fractionCount_eq]
      omega
    have hmod : 2 ^ 52 + (j * 2 ^ 52 + s) % 2 ^ 52 = s := by omega
    rw [units, hscale, significand_of_normal (by omega), hmod]

/-- The next magnitude is one step of the binade further, also where the
next binade begins. -/
theorem units_succ (m : Nat) : units (m + 1) = units m + 2 ^ scale m := by
  rcases Nat.lt_or_ge (m + 1) (2 ^ 52) with hlow | hhigh
  · have hscale : scale (m + 1) = 0 ∧ scale m = 0 := by
      unfold scale exponentField
      rw [fractionCount_eq]
      omega
    rw [units, units, significand_of_subnormal hlow,
      significand_of_subnormal (by omega), hscale.1, hscale.2]
    omega
  · rcases Nat.lt_or_ge m (2 ^ 52) with hm | hm
    · have heq : m = 2 ^ 52 - 1 := by omega
      subst heq
      decide
    · rw [units, units, significand_of_normal hhigh, significand_of_normal hm]
      by_cases hwrap : m % 2 ^ 52 = 2 ^ 52 - 1
      · have hmod : (m + 1) % 2 ^ 52 = 0 := by omega
        have hscale : scale (m + 1) = scale m + 1 := by
          unfold scale exponentField
          rw [fractionCount_eq]
          omega
        rw [hmod, hscale, hwrap, Nat.pow_succ]
        omega
      · have hmod : (m + 1) % 2 ^ 52 = m % 2 ^ 52 + 1 := by omega
        have hscale : scale (m + 1) = scale m := by
          unfold scale exponentField
          rw [fractionCount_eq]
          omega
        rw [hmod, hscale]
        ring

theorem units_strictMono : StrictMono units := by
  refine strictMono_nat_of_lt_succ fun m => ?_
  rw [units_succ]
  exact Nat.lt_add_of_pos_right (Nat.two_pow_pos _)

/-! ## The order of values -/

/-- Larger magnitudes have larger values. -/
theorem valueOf_strictMono : StrictMono valueOf := by
  intro m n h
  rw [valueOf_eq_units, valueOf_eq_units]
  have hunits : (units m : ℚ) < units n := by
    exact_mod_cast units_strictMono h
  have hpos : (0 : ℚ) < 2 ^ 1074 := by positivity
  exact div_lt_div_of_pos_right hunits hpos

@[simp] theorem valueOf_le_valueOf {m n : Nat} :
    valueOf m ≤ valueOf n ↔ m ≤ n :=
  valueOf_strictMono.le_iff_le

@[simp] theorem valueOf_zero : valueOf 0 = 0 := by decide +kernel

theorem valueOf_nonneg (m : Nat) : 0 ≤ valueOf m := by
  rw [← valueOf_zero, valueOf_le_valueOf]
  exact Nat.zero_le m

/-- The magnitude of one. -/
def oneMagnitude : Nat := 0x3ff0000000000000

theorem one_eq : one = ofMagnitude false oneMagnitude := rfl

@[simp] theorem valueOf_oneMagnitude : valueOf oneMagnitude = 1 := by
  decide +kernel

theorem oneMagnitude_lt : oneMagnitude < infinityMagnitude := by decide

theorem infinityMagnitude_lt : infinityMagnitude < 2 ^ 63 := by decide

/-! ## Bits -/

theorem signWeight_eq : signWeight = 2 ^ 63 := rfl

private theorem toNat_bits_ofMagnitude {s : Bool} {m : Nat} (h : m < 2 ^ 63) :
    (ofMagnitude s m).bits.toNat = if s then signWeight + m else m := by
  unfold ofMagnitude
  refine UInt64.toNat_ofNat_of_lt' ?_
  show (if s then signWeight + m else m) < 2 ^ 64
  rw [signWeight_eq]
  cases s
  · simp only [Bool.false_eq_true, if_false]
    omega
  · simp only [if_true]
    omega

@[simp] theorem magnitude_ofMagnitude {s : Bool} {m : Nat} (h : m < 2 ^ 63) :
    (ofMagnitude s m).magnitude = m := by
  rw [magnitude, toNat_bits_ofMagnitude h, signWeight_eq]
  cases s
  · exact Nat.mod_eq_of_lt h
  · rw [if_pos rfl, Nat.add_mod_left]
    exact Nat.mod_eq_of_lt h

@[simp] theorem negative_ofMagnitude {s : Bool} {m : Nat} (h : m < 2 ^ 63) :
    (ofMagnitude s m).negative = s := by
  rw [negative, toNat_bits_ofMagnitude h, signWeight_eq]
  cases s
  · simpa using h
  · simp

/-! ## Comparison -/

/-- The value that belongs to a place in the order of numbers. -/
def valueAtPlace (z : Int) : ℚ :=
  if z < 0 then -valueOf z.natAbs else valueOf z.natAbs

theorem valueAtPlace_strictMono : StrictMono valueAtPlace := by
  intro y z h
  unfold valueAtPlace
  split <;> split
  · have := valueOf_strictMono (show z.natAbs < y.natAbs by omega)
    linarith
  · have hy := valueOf_strictMono (show 0 < y.natAbs by omega)
    have hz := valueOf_nonneg z.natAbs
    rw [valueOf_zero] at hy
    linarith
  · omega
  · exact valueOf_strictMono (by omega)

theorem toRat_of_finite {x : Binary64} (h : x.isFinite = true) :
    x.toRat? = some x.toRat := by
  unfold toRat toRat?
  rw [if_pos h]
  rfl

/-- The value of a finite number is the value at its place. -/
theorem toRat_eq_valueAtPlace {x : Binary64} (h : x.isFinite = true) :
    x.toRat = valueAtPlace x.place := by
  unfold toRat toRat?
  rw [if_pos h]
  unfold place valueAtPlace
  cases hSign : x.negative with
  | false =>
      simp only [Bool.false_eq_true, if_false, Option.getD_some]
      rw [if_neg (by omega), Int.natAbs_natCast]
  | true =>
      simp only [if_true, Option.getD_some, Int.natAbs_neg, Int.natAbs_natCast]
      by_cases hZero : x.magnitude = 0
      · simp [hZero]
      · rw [if_pos (by omega)]

theorem isNaN_of_finite {x : Binary64} (h : x.isFinite = true) :
    x.isNaN = false := by
  have hlt : x.magnitude < infinityMagnitude := of_decide_eq_true h
  exact decide_eq_false (by omega)

theorem toRat?_of_infinite {x : Binary64} (h : x.isInfinite = true) :
    x.toRat? = none ∧ x.isNaN = false := by
  have heq : x.magnitude = infinityMagnitude := of_decide_eq_true h
  unfold toRat? isFinite isNaN
  rw [heq]
  simp

theorem toRat?_of_isNaN {x : Binary64} (h : x.isNaN = true) :
    x.toRat? = none := by
  have hlt : infinityMagnitude < x.magnitude := of_decide_eq_true h
  unfold toRat?
  rw [if_neg]
  simp only [isFinite, decide_eq_true_eq]
  omega

/-- On finite numbers, comparison is the order of the exact values. -/
theorem toRat_le_iff {x y : Binary64} (hx : x.isFinite = true)
    (hy : y.isFinite = true) : x.le y = true ↔ x.toRat ≤ y.toRat := by
  rw [toRat_eq_valueAtPlace hx, toRat_eq_valueAtPlace hy,
    valueAtPlace_strictMono.le_iff_le]
  simp [le, isNaN_of_finite hx, isNaN_of_finite hy]

/-! ## Finite numbers that are not negative -/

/-- A finite number without sign bit. -/
structure Plain (x : Binary64) : Prop where
  finite : x.isFinite = true
  unsigned : x.negative = false

section Magnitude

variable {m : Nat} (hm : m < infinityMagnitude)

include hm

theorem plain_ofMagnitude : (ofMagnitude false m).Plain := by
  have hm63 := hm.trans infinityMagnitude_lt
  refine ⟨?_, negative_ofMagnitude hm63⟩
  rw [isFinite, magnitude_ofMagnitude hm63]
  exact decide_eq_true hm

theorem toRat?_ofMagnitude :
    (ofMagnitude false m).toRat? = some (valueOf m) := by
  have hPlain := plain_ofMagnitude hm
  rw [toRat?, if_pos hPlain.finite, hPlain.unsigned,
    magnitude_ofMagnitude (hm.trans infinityMagnitude_lt)]
  rfl

theorem toRat_ofMagnitude : (ofMagnitude false m).toRat = valueOf m := by
  rw [toRat, toRat?_ofMagnitude hm, Option.getD_some]

theorem zero_lt_ofMagnitude : zero.lt (ofMagnitude false m) = true ↔ 0 < m := by
  have hPlain := plain_ofMagnitude hm
  have hZero : zero.isNaN = false ∧ zero.place = 0 := by decide
  rw [lt, hZero.1, hZero.2, isNaN_of_finite hPlain.finite, place,
    hPlain.unsigned, magnitude_ofMagnitude (hm.trans infinityMagnitude_lt)]
  simp

end Magnitude

namespace Plain

variable {x : Binary64} (h : x.Plain)

include h

theorem magnitude_lt : x.magnitude < infinityMagnitude :=
  of_decide_eq_true h.finite

theorem bits_eq : x.bits.toNat = x.magnitude := by
  have hBits : ¬ signWeight ≤ x.bits.toNat := of_decide_eq_false h.unsigned
  exact (Nat.mod_eq_of_lt (not_le.1 hBits)).symm

theorem eq_ofMagnitude : x = ofMagnitude false x.magnitude := by
  have hBits : x.bits = UInt64.ofNat x.magnitude := by
    rw [← h.bits_eq, UInt64.ofNat_toNat]
  show x = ⟨UInt64.ofNat x.magnitude⟩
  rw [← hBits]

theorem toRat_eq : x.toRat = valueOf x.magnitude := by
  conv_lhs => rw [h.eq_ofMagnitude]
  exact toRat_ofMagnitude h.magnitude_lt

/-- Among numbers that are not finite, only positive infinity is above a finite
number. -/
theorem le_iff_of_not_finite {y : Binary64} (hy : ¬ y.isFinite = true) :
    x.le y = true ↔ (y.isNaN || y.negative) = false := by
  have hSmall := h.magnitude_lt
  have hBig : infinityMagnitude ≤ y.magnitude := by simpa [isFinite] using hy
  simp only [le, isNaN_of_finite h.finite, place, h.unsigned, Bool.not_false,
    Bool.true_and, Bool.false_eq_true, if_false, Bool.and_eq_true,
    Bool.not_eq_true', decide_eq_true_eq, Bool.or_eq_false_iff]
  refine and_congr_right fun _ => ?_
  cases hSign : y.negative with
  | false =>
      simp only [Bool.false_eq_true, if_false, iff_true]
      omega
  | true =>
      simp only [if_true, Bool.true_eq_false, iff_false]
      omega

end Plain

/-- Numbers with a sign bit are not positive. -/
theorem toRat_nonpos {x : Binary64} (h : x.negative = true) : x.toRat ≤ 0 := by
  rw [toRat, toRat?, if_pos h]
  split
  · exact neg_nonpos.2 (valueOf_nonneg _)
  · exact le_refl 0

end ValueMix.Binary64
