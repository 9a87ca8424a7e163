import Mathlib
import ValueMix.Proofs.TableColumns

/-!
# Percentages rounded to a tenth

A single probability is shown as the nearest tenth of a percent. No integer is
nearer to a number than the one that it is rounded to, and if another one is as
near, the number lies halfway between the two and the other one is closer to
zero. Texts of tenths state what they were made of, so all this can be said of
what is read from a percentage.

## Main results

* `abs_roundHalfAway_sub_le_abs` — no integer is nearer.
* `abs_le_abs_roundHalfAway` — of two that are equally near, the one further
  from zero is taken.
* `tenthsText_injective` — texts of tenths tell them apart.
* `percentText_exact` — what is read from a percentage.
-/

namespace ValueMix.Number

open ValueMix.Text

/-! ## The nearest integer -/

theorem roundHalfAway_zero : roundHalfAway 0 = 0 := by
  exact_mod_cast roundHalfAway_intCast 0

/-- Rounding does not depend on the sign. -/
theorem roundHalfAway_neg (x : ℚ) : roundHalfAway (-x) = -roundHalfAway x := by
  rcases lt_trichotomy x 0 with hx | rfl | hx
  · rw [roundHalfAway, roundHalfAway, if_neg (by linarith), if_pos hx, neg_neg]
  · rw [neg_zero, roundHalfAway_zero, neg_zero]
  · rw [roundHalfAway, roundHalfAway, if_pos (by linarith), if_neg hx.not_gt,
      neg_neg]

/-- A number that is not negative is rounded by at most a half upwards and by
less than a half downwards. -/
theorem roundHalfAway_bounds {x : ℚ} (hx : 0 ≤ x) :
    x - 1 / 2 < roundHalfAway x ∧ (roundHalfAway x : ℚ) ≤ x + 1 / 2 := by
  have hFloor : roundHalfAway x = ⌊x + 1 / 2⌋ := if_neg hx.not_gt
  rw [hFloor]
  have hLow := Int.lt_floor_add_one (x + 1 / 2)
  exact ⟨by linarith, Int.floor_le _⟩

/-- No integer is nearer. -/
theorem abs_roundHalfAway_sub_le_abs (x : ℚ) (n : ℤ) :
    |(roundHalfAway x : ℚ) - x| ≤ |(n : ℚ) - x| := by
  have hHalf := abs_roundHalfAway_sub_le x
  by_cases hSame : n = roundHalfAway x
  · rw [hSame]
  · -- the two integers are at least one apart, so one half is left for `n`
    have hApart : (1 : ℚ) ≤ |(n : ℚ) - roundHalfAway x| := by
      exact_mod_cast Int.one_le_abs (sub_ne_zero.2 hSame)
    have hTriangle := abs_sub_le (n : ℚ) x (roundHalfAway x)
    rw [abs_sub_comm x] at hTriangle
    linarith

private theorem abs_le_abs_roundHalfAway_of_nonneg {x : ℚ} (hx : 0 ≤ x) {n : ℤ}
    (h : |(n : ℚ) - x| = |(roundHalfAway x : ℚ) - x|) :
    |n| ≤ |roundHalfAway x| := by
  obtain ⟨hLow, hHigh⟩ := roundHalfAway_bounds hx
  rcases abs_eq_abs.1 h with hSame | hOpposite
  · have hEqual : n = roundHalfAway x := by
      exact_mod_cast sub_left_injective hSame
    rw [hEqual]
  · -- `x` is the middle between `n` and the integer taken, which is not below
    -- `x`
    have hBelow : (n : ℚ) < roundHalfAway x + 1 := by linarith
    have hAbove : (0 : ℚ) ≤ n + roundHalfAway x := by linarith
    have hBelow' : n < roundHalfAway x + 1 := by exact_mod_cast hBelow
    have hAbove' : 0 ≤ n + roundHalfAway x := by exact_mod_cast hAbove
    rw [abs_le]
    have hTaken := le_abs_self (roundHalfAway x)
    constructor <;> omega

/-- Of two integers that are equally near, the one further from zero is
taken. -/
theorem abs_le_abs_roundHalfAway {x : ℚ} {n : ℤ}
    (h : |(n : ℚ) - x| = |(roundHalfAway x : ℚ) - x|) :
    |n| ≤ |roundHalfAway x| := by
  rcases le_or_gt 0 x with hx | hx
  · exact abs_le_abs_roundHalfAway_of_nonneg hx h
  · have hMirror : |((-n : ℤ) : ℚ) - -x| = |(roundHalfAway (-x) : ℚ) - -x| := by
      rw [roundHalfAway_neg]
      push_cast
      rw [← neg_sub', ← neg_sub', abs_neg, abs_neg, h]
    have hAway := abs_le_abs_roundHalfAway_of_nonneg (by linarith) hMirror
    rwa [roundHalfAway_neg, abs_neg, abs_neg] at hAway

/-! ## The nearest tenth -/

/-- `q` is the multiple of a tenth nearest to `x`; a half goes away from
zero. -/
structure NearestTenth (x q : ℚ) : Prop where
  multiple : ∃ n : ℤ, q = n / 10
  nearest : ∀ n : ℤ, |q - x| ≤ |(n : ℚ) / 10 - x|
  away : ∀ n : ℤ, |(n : ℚ) / 10 - x| = |q - x| → |(n : ℚ) / 10| ≤ |q|

namespace NearestTenth

/-- There is one such multiple only. -/
theorem unique {x q r : ℚ} (hq : NearestTenth x q) (hr : NearestTenth x r) :
    q = r := by
  obtain ⟨m, hm⟩ := hq.multiple
  obtain ⟨n, hn⟩ := hr.multiple
  have hEqual : |q - x| = |r - x| :=
    le_antisymm (hn ▸ hq.nearest n) (hm ▸ hr.nearest m)
  have hSize : |q| = |r| := by
    apply le_antisymm
    · rw [hm]
      exact hr.away m (by rw [← hm, hEqual])
    · rw [hn]
      exact hq.away n (by rw [← hn, hEqual])
  rcases abs_eq_abs.1 hSize with hSame | hOpposite
  · exact hSame
  · rcases abs_eq_abs.1 hEqual with hLeft | hRight
    · linarith
    · -- now `x` is zero, and nothing is nearer to it than zero itself
      have hZero : x = 0 := by linarith
      have hNone := hq.nearest 0
      rw [hZero] at hNone
      have hq0 : q = 0 := by simpa using hNone
      linarith

end NearestTenth

theorem abs_tenth_sub (n : ℤ) (p : ℚ) :
    |(n : ℚ) / 10 - 100 * p| = |(n : ℚ) - inTenths p| / 10 := by
  have hScale : (n : ℚ) / 10 - 100 * p = ((n : ℚ) - inTenths p) / 10 := by
    rw [inTenths_eq]
    ring
  rw [hScale, abs_div, abs_of_pos (show (0 : ℚ) < 10 by norm_num)]

/-- A single probability is shown as the tenth of a percent nearest to it. -/
theorem nearestTenth_nearestTenths (p : ℚ) :
    NearestTenth (100 * p) ((nearestTenths p : ℚ) / 10) where
  multiple := ⟨_, rfl⟩
  nearest := by
    intro n
    rw [abs_tenth_sub, abs_tenth_sub]
    have hNearest := abs_roundHalfAway_sub_le_abs (inTenths p) n
    exact div_le_div_of_nonneg_right hNearest (by norm_num)
  away := by
    intro n hTie
    rw [abs_tenth_sub, abs_tenth_sub, div_left_inj' (by norm_num)] at hTie
    have hAway : (|n| : ℚ) ≤ |(nearestTenths p : ℚ)| := by
      exact_mod_cast abs_le_abs_roundHalfAway hTie
    rw [abs_div, abs_div]
    exact div_le_div_of_nonneg_right hAway (abs_nonneg _)

/-! ## Texts -/

/-- Texts of tenths tell them apart. -/
theorem tenthsText_injective : Function.Injective tenthsText := by
  intro s t h
  have hRead : some ((s : ℚ) / 10) = some ((t : ℚ) / 10) := by
    rw [← readDecimal_tenthsText, ← readDecimal_tenthsText, h]
  have hEqual : (s : ℚ) = t := by
    rwa [Option.some.injEq, div_left_inj' (by norm_num)] at hRead
  exact_mod_cast hEqual

theorem readDecimal_percentText (p : ℚ) :
    readDecimal (percentText p).toList = some ((nearestTenths p : ℚ) / 10) :=
  readDecimal_tenthsText _

/-- **What is read from a percentage.** The text of any number of tenths states
its value, and different numbers of tenths have different texts. So the
percentage of a probability, whatever its sign and size, states the multiple of
a tenth that is nearest to it, with halves away from zero, and it states no less
for a greater probability. -/
theorem percentText_exact :
    (∀ t : ℤ, readDecimal (tenthsText t).toList = some ((t : ℚ) / 10)) ∧
    Function.Injective tenthsText ∧
    (∀ p : ℚ, ∃ q, readDecimal (percentText p).toList = some q ∧
      ∀ r, NearestTenth (100 * p) r ↔ r = q) ∧
    ∀ p p' : ℚ, p ≤ p' → ∃ q q',
      readDecimal (percentText p).toList = some q ∧
      readDecimal (percentText p').toList = some q' ∧ q ≤ q' := by
  refine ⟨readDecimal_tenthsText, tenthsText_injective, fun p => ?_, ?_⟩
  · refine ⟨_, readDecimal_percentText p, fun r => ?_⟩
    have hNearest := nearestTenth_nearestTenths p
    constructor
    · intro hr
      exact hr.unique hNearest
    · rintro rfl
      exact hNearest
  · intro p p' h
    refine ⟨_, _, readDecimal_percentText p, readDecimal_percentText p', ?_⟩
    have hTenths : (nearestTenths p : ℚ) ≤ nearestTenths p' := by
      exact_mod_cast nearestTenths_mono h
    exact div_le_div_of_nonneg_right hTenths (by norm_num)

/-- Halves of a tenth on both sides of zero, shown as `-0.1` and `0.1`. -/
theorem percentText_exact_halves :
    percentText (-1 / 2000) = "-0.1" ∧ percentText (1 / 2000) = "0.1" ∧
      NearestTenth (100 * (-1 / 2000)) (-1 / 10) ∧
      (-1 / 2000 : ℚ) ≤ 1 / 2000 ∧ ∃ q q',
        readDecimal (percentText (-1 / 2000)).toList = some q ∧
        readDecimal (percentText (1 / 2000)).toList = some q' ∧ q ≤ q' := by
  have hLess : (-1 / 2000 : ℚ) ≤ 1 / 2000 := by norm_num
  have hText : percentText (-1 / 2000) = "-0.1" := by decide +kernel
  have hText' : percentText (1 / 2000) = "0.1" := by decide +kernel
  have hRead : readDecimal "-0.1".toList = some (-1 / 10) := by decide +kernel
  obtain ⟨q, hq, hNearest⟩ := percentText_exact.2.2.1 (-1 / 2000)
  rw [hText, hRead, Option.some.injEq] at hq
  exact ⟨hText, hText', (hNearest _).2 hq, hLess,
    percentText_exact.2.2.2 _ _ hLess⟩

end ValueMix.Number
