import Mathlib
import ValueMix.Proofs.RoundTrip

/-!
# What the percentages shown add up to

The text of a percentage states the tenths that it was made of, whatever their
sign, so the texts for a list of parts can be judged by the numbers read from
them. These add up to the rounded total, because the shortage is never
negative and never more than the number of parts.

## Main results

* `readDecimal_tenthsText` — the text of some tenths states their value.
* `apportionedTexts_exact` — what the texts for a list of parts state, one by
  one and in total.
-/

namespace ValueMix.Number

open ValueMix.Text

/-! ## Reading tenths -/

theorem tenthsText_neg {t : ℤ} (h : t < 0) :
    tenthsText t = "-" ++ tenthsText (-t) := by
  have hPositive : ¬ -t < 0 := by omega
  unfold tenthsText signed
  simp only [h, hPositive, decide_true, decide_false, if_true,
    Bool.false_eq_true, if_false, Int.natAbs_neg]

/-- A number of tenths is written as a signed numeral of its value. -/
theorem signedNumeral_tenths (t : ℤ) :
    SignedNumeral (tenthsText t).toList (t / 10) := by
  rcases lt_or_ge t 0 with hNeg | hNonneg
  · have hNumeral := SignedNumeral.minus
      (numeral_tenths (show 0 ≤ -t by omega))
    have hValue : -(((-t : ℤ) : ℚ) / 10) = t / 10 := by
      push_cast
      ring
    rw [hValue] at hNumeral
    rw [tenthsText_neg hNeg, String.toList_append]
    exact hNumeral
  · exact .plain (numeral_tenths hNonneg)

/-- The text of some tenths states their value. -/
theorem readDecimal_tenthsText (t : ℤ) :
    readDecimal (tenthsText t).toList = some ((t : ℚ) / 10) :=
  readDecimal_eq_some_iff.2
    ⟨_, ⟨[], [], blank_nil, blank_nil, by simp⟩, signedNumeral_tenths t⟩

/-- The percentages that some tenths stand for. -/
def percents (ts : List ℤ) : List ℚ := ts.map fun t : ℤ => (t : ℚ) / 10

/-- The percentages that some texts state. -/
def percentsRead (texts : List String) : List (Option ℚ) :=
  texts.map fun s => readDecimal s.toList

theorem percentsRead_apportionedTexts (parts : List ℚ) :
    percentsRead (apportionedTexts parts) =
      (percents (apportion parts)).map some := by
  rw [percentsRead, apportionedTexts, percents, List.map_map, List.map_map]
  exact List.map_congr_left fun t _ => readDecimal_tenthsText t

/-! ## Parts and totals -/

theorem sum_percents (ts : List ℤ) : (percents ts).sum = ts.sum / 10 := by
  simp only [percents, div_eq_mul_inv, List.sum_map_mul_right]
  rw [Int.cast_list_sum]

/-- The tenths missing from the rounded total if every part is rounded down. -/
def missingTenths (parts : List ℚ) : ℤ :=
  roundHalfAway (inTenths parts.sum) - (floors parts).sum

theorem inTenths_eq (p : ℚ) : inTenths p = 10 * (100 * p) := by
  rw [inTenths]
  ring

/-- A part rounded down or up to tenths is shown less than a tenth away. -/
theorem percent_near {t : ℤ} {p : ℚ}
    (h : t = ⌊inTenths p⌋ ∨ t = ⌈inTenths p⌉) :
    |(t : ℚ) / 10 - 100 * p| < 1 / 10 := by
  have hNear := abs_lt.1 (abs_sub_lt_of_floor_or_ceil h)
  rw [inTenths_eq] at hNear
  rw [abs_lt]
  constructor <;> linarith

/-- A part of whole tenths, rounded down or up, is shown as it is. -/
theorem percent_exact {t n : ℤ} {p : ℚ}
    (h : t = ⌊inTenths p⌋ ∨ t = ⌈inTenths p⌉) (hWhole : inTenths p = n) :
    (t : ℚ) / 10 = 100 * p := by
  have hSame : t = n := by
    rcases h with rfl | rfl
    · rw [hWhole, Int.floor_intCast]
    · rw [hWhole, Int.ceil_intCast]
  rw [inTenths_eq] at hWhole
  rw [hSame, ← hWhole]
  ring

/-- **What the percentages shown add up to.** The shortage lies between zero
and the number of parts, so the percentages that the texts state add up to the
rounded total, and each of them is its part rounded down, or one tenth above
that. Parts that are not negative are shown rounded down or up, less than a
tenth away, and as they are if they are whole tenths. The marginals of a
distribution that can be built are shown as a hundred percent in total. -/
theorem apportionedTexts_exact (parts : List ℚ) :
    (0 ≤ missingTenths parts ∧ missingTenths parts ≤ parts.length ∧
      (shortage parts : ℤ) = missingTenths parts) ∧
    ∃ shown : List ℚ,
      percentsRead (apportionedTexts parts) = shown.map some ∧
      10 * shown.sum = roundHalfAway (inTenths parts.sum) ∧
      List.Forall₂ (fun (q : ℚ) p =>
        10 * q = ⌊inTenths p⌋ ∨ 10 * q = ⌊inTenths p⌋ + 1) shown parts ∧
      ((∀ p ∈ parts, 0 ≤ p) → List.Forall₂ (fun (q : ℚ) p =>
        (10 * q = ⌊inTenths p⌋ ∨ 10 * q = ⌈inTenths p⌉) ∧
        |q - 100 * p| < 1 / 10 ∧
        ((∃ n : ℤ, inTenths p = n) → q = 100 * p)) shown parts) ∧
      (∀ (α : Type) (d : Distribution α), d.Reachable → d.marginals = parts →
        shown.sum = 100) := by
  have hShortage : (shortage parts : ℤ) = missingTenths parts :=
    shortage_eq parts
  have hLength : (shortage parts : ℤ) ≤ parts.length := by
    exact_mod_cast shortage_le_length parts
  have hTen : ∀ t : ℤ, (10 : ℚ) * ((t : ℚ) / 10) = t := fun t => by ring
  refine ⟨⟨by omega, by omega, hShortage⟩,
    percents (apportion parts), percentsRead_apportionedTexts parts, ?_, ?_,
    ?_, ?_⟩
  · rw [sum_percents, sum_apportion, hTen]
  · rw [percents, List.forall₂_map_left_iff]
    refine (forall₂_apportion parts).imp fun t p hShown => ?_
    rw [hTen]
    exact_mod_cast hShown
  · intro hNonneg
    rw [percents, List.forall₂_map_left_iff]
    refine (floor_or_ceil_apportion hNonneg).imp fun t p hShown => ?_
    refine ⟨?_, percent_near hShown, ?_⟩
    · rw [hTen]
      exact_mod_cast hShown
    · rintro ⟨n, hWhole⟩
      exact percent_exact hShown hWhole
  · rintro α d hd rfl
    rw [sum_percents, hd.tabulated.sum_tenths]
    norm_num

end ValueMix.Number
