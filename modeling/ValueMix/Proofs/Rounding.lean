import Mathlib
import ValueMix.Proofs.Magnitudes

/-!
# Rounding is exact on the numbers of the format

A quotient that is the value of a magnitude is rounded to this magnitude. The
unit of the rounding is then the unit of the magnitude's binade, so the division
by it leaves nothing to round. Uniform draws are such quotients.

## Main results

* `floorLog2_spec` — the exponent of a quotient.
* `roundMagnitude_of_valueOf` — the values of magnitudes are not rounded.
* `toRat?_gridDraw` — the value of a uniform draw.
-/

namespace ValueMix.Binary64

/-! ## The exponent of a quotient -/

private theorem reaches_iff {n d : Nat} (hd : 0 < d) (g : Int) :
    (if 0 ≤ g then decide (d * Nat.pow 2 g.toNat ≤ n)
      else decide (d ≤ n * Nat.pow 2 (-g).toNat)) = true ↔
      (2 : ℚ) ^ g ≤ n / d := by
  have hdQ : (0 : ℚ) < d := by exact_mod_cast hd
  rw [le_div_iff₀ hdQ]
  split_ifs with hg
  · obtain ⟨k, rfl⟩ := Int.eq_ofNat_of_zero_le hg
    rw [decide_eq_true_eq, Int.toNat_natCast, zpow_natCast, mul_comm]
    exact_mod_cast Iff.rfl
  · obtain ⟨k, hk⟩ := Int.eq_ofNat_of_zero_le (show 0 ≤ -g by omega)
    obtain rfl : g = -k := by omega
    have hpos : (0 : ℚ) < 2 ^ k := by positivity
    rw [decide_eq_true_eq, neg_neg, Int.toNat_natCast, zpow_neg, zpow_natCast,
      inv_mul_le_iff₀ hpos, mul_comm]
    exact_mod_cast Iff.rfl

/-- The exponent of a quotient is the greatest one whose power of two the
quotient reaches. -/
theorem floorLog2_spec {n d : Nat} (hn : 0 < n) (hd : 0 < d) :
    (2 : ℚ) ^ floorLog2 n d ≤ n / d ∧
    (n : ℚ) / d < 2 ^ (floorLog2 n d + 1) := by
  have hdQ : (0 : ℚ) < d := by exact_mod_cast hd
  have hnLow : (2 : ℚ) ^ n.log2 ≤ n := by
    exact_mod_cast Nat.log2_self_le hn.ne'
  have hnHigh : (n : ℚ) < 2 ^ (n.log2 + 1) := by
    exact_mod_cast Nat.lt_log2_self (n := n)
  have hdLow : (2 : ℚ) ^ d.log2 ≤ d := by
    exact_mod_cast Nat.log2_self_le hd.ne'
  have hdHigh : (d : ℚ) < 2 ^ (d.log2 + 1) := by
    exact_mod_cast Nat.lt_log2_self (n := d)
  set g : Int := (n.log2 : Int) - d.log2 with hg
  have hLow : (2 : ℚ) ^ (g - 1) ≤ n / d := by
    rw [le_div_iff₀ hdQ]
    calc (2 : ℚ) ^ (g - 1) * d
        ≤ 2 ^ (g - 1) * 2 ^ (d.log2 + 1) := by gcongr
      _ = 2 ^ n.log2 := by
        rw [← zpow_natCast, ← zpow_natCast, ← zpow_add₀ two_ne_zero]
        congr 1
        omega
      _ ≤ n := hnLow
  have hHigh : (n : ℚ) / d < 2 ^ (g + 1) := by
    rw [div_lt_iff₀ hdQ]
    calc (n : ℚ) < 2 ^ (n.log2 + 1) := hnHigh
      _ = 2 ^ (g + 1) * 2 ^ d.log2 := by
        rw [← zpow_natCast, ← zpow_natCast, ← zpow_add₀ two_ne_zero]
        congr 1
        omega
      _ ≤ 2 ^ (g + 1) * d := by gcongr
  unfold floorLog2
  simp only [← hg, reaches_iff hd]
  split_ifs with hReaches
  · exact ⟨hReaches, hHigh⟩
  · rw [sub_add_cancel]
    exact ⟨hLow, not_le.1 hReaches⟩

/-! ## Exact quotients -/

theorem divNearestEven_mul {d : Nat} (hd : 0 < d) (q : Nat) :
    divNearestEven (q * d) d = q := by
  unfold divNearestEven
  simp only [Nat.mul_div_cancel q hd, Nat.mul_mod_left, Nat.mul_zero]
  rw [if_pos hd]

/-- The value of a magnitude, as its significand in units of its binade. -/
theorem valueOf_eq_zpow (m : Nat) :
    valueOf m = significand m * (2 : ℚ) ^ ((scale m : Int) - 1074) := by
  rw [valueOf_eq_units, units, zpow_sub₀ two_ne_zero, zpow_natCast, zpow_ofNat,
    mul_div_assoc', Nat.cast_mul, Nat.cast_pow, Nat.cast_ofNat]

/-- The unit that a quotient is rounded to is that of the binade it lies in. -/
theorem unit_of_valueOf {n d m : Nat} (hn : 0 < n) (hd : 0 < d)
    (h : (n : ℚ) / d = valueOf m) :
    Max.max (floorLog2 n d - 52) (-1074 : Int) = (scale m : Int) - 1074 := by
  obtain ⟨hLow, hHigh⟩ := floorLog2_spec hn hd
  rw [h, valueOf_eq_zpow] at hLow hHigh
  have hUnit : (0 : ℚ) < 2 ^ ((scale m : Int) - 1074) := by positivity
  have hUpper : floorLog2 n d < 53 + ((scale m : Int) - 1074) := by
    rw [← zpow_lt_zpow_iff_right₀ (one_lt_two (α := ℚ)),
      zpow_add₀ two_ne_zero]
    have hSmall : (significand m : ℚ) < 2 ^ (53 : Int) := by
      exact_mod_cast significand_lt m
    exact hLow.trans_lt (mul_lt_mul_of_pos_right hSmall hUnit)
  rcases scale_eq_zero_or_le_significand m with hScale | hNormal
  · omega
  · have hLower : 52 + ((scale m : Int) - 1074) < floorLog2 n d + 1 := by
      rw [← zpow_lt_zpow_iff_right₀ (one_lt_two (α := ℚ)),
        zpow_add₀ two_ne_zero]
      have hLarge : (2 : ℚ) ^ (52 : Int) ≤ significand m := by
        exact_mod_cast hNormal
      exact (mul_le_mul_of_nonneg_right hLarge hUnit.le).trans_lt hHigh
    omega

/-- Dividing by the unit of its binade, the value of a magnitude leaves its
significand. -/
theorem divNearestEven_of_valueOf {n d m : Nat} (hd : 0 < d)
    (h : (n : ℚ) / d = valueOf m) {unit : Int}
    (hUnit : unit = (scale m : Int) - 1074) :
    (if 0 ≤ unit then divNearestEven n (d * Nat.pow 2 unit.toNat)
      else divNearestEven (n * Nat.pow 2 (-unit).toNat) d) = significand m := by
  have hdQ : (d : ℚ) ≠ 0 := by exact_mod_cast hd.ne'
  rw [valueOf_eq_zpow, ← hUnit, div_eq_iff hdQ] at h
  split_ifs with hSign
  · obtain ⟨k, rfl⟩ := Int.eq_ofNat_of_zero_le hSign
    rw [zpow_natCast, mul_assoc, mul_comm _ (d : ℚ)] at h
    have hExact : n = significand m * (d * 2 ^ k) := by exact_mod_cast h
    rw [Int.toNat_natCast, Nat.pow_eq, hExact]
    exact divNearestEven_mul (by positivity) _
  · obtain ⟨k, hk⟩ := Int.eq_ofNat_of_zero_le (show 0 ≤ -unit by omega)
    have hPow : (2 : ℚ) ^ k ≠ 0 := by positivity
    rw [show unit = -k by omega, zpow_neg, zpow_natCast, mul_right_comm,
      ← div_eq_mul_inv, eq_div_iff hPow] at h
    have hExact : n * 2 ^ k = significand m * d := by exact_mod_cast h
    rw [hk, Int.toNat_natCast, Nat.pow_eq, hExact]
    exact divNearestEven_mul hd _

/-- The values of magnitudes are not rounded. -/
theorem roundMagnitude_of_valueOf {n d m : Nat} (hd : 0 < d)
    (hm : m ≤ infinityMagnitude) (h : (n : ℚ) / d = valueOf m) :
    roundMagnitude n d = m := by
  rcases Nat.eq_zero_or_pos n with rfl | hn
  · have hZero : valueOf 0 = valueOf m := by rw [← h, valueOf_zero]; simp
    exact valueOf_strictMono.injective hZero
  · have hUnit := unit_of_valueOf hn hd h
    unfold roundMagnitude
    rw [if_neg hn.ne']
    simp only [divNearestEven_of_valueOf hd h hUnit]
    rw [hUnit, sub_add_cancel, Int.toNat_natCast, fractionCount_eq,
      scale_mul_add_significand]
    exact Nat.min_eq_left hm

/-! ## Uniform draws -/

/-- Every number of 53 bits, as a fraction, is the value of a magnitude. -/
theorem exists_valueOf_eq {k : Nat} (hk : k < 2 ^ 53) :
    ∃ m, m < infinityMagnitude ∧ (k : ℚ) / 2 ^ 53 = valueOf m := by
  rcases Nat.eq_zero_or_pos k with rfl | hPos
  · exact ⟨0, by decide, by simp⟩
  · -- Shifted to 53 bits, the number is the significand of a magnitude.
    obtain ⟨b, hb⟩ : ∃ b, k.log2 + b = 52 := by
      have := (Nat.log2_lt hPos.ne').2 hk
      exact ⟨52 - k.log2, by omega⟩
    have hLow : 2 ^ 52 ≤ k * 2 ^ b := by
      rw [← hb, pow_add]
      exact Nat.mul_le_mul_right _ (Nat.log2_self_le hPos.ne')
    have hHigh : k * 2 ^ b < 2 ^ 53 := by
      rw [show 53 = k.log2 + 1 + b by omega, pow_add]
      exact Nat.mul_lt_mul_of_pos_right Nat.lt_log2_self (Nat.two_pow_pos b)
    refine ⟨(1021 - b) * 2 ^ 52 + k * 2 ^ b, ?_, ?_⟩
    · unfold infinityMagnitude
      omega
    · have hUnits : units ((1021 - b) * 2 ^ 52 + k * 2 ^ b) = k * 2 ^ 1021 := by
        rw [units_mul_add hHigh (Or.inr hLow), mul_assoc, ← pow_add]
        congr 2
        omega
      have hSplit : (2 : ℚ) ^ 1074 = 2 ^ 53 * 2 ^ 1021 := by rw [← pow_add]
      rw [valueOf_eq_units, hUnits, hSplit, Nat.cast_mul, Nat.cast_pow,
        Nat.cast_ofNat, mul_div_mul_right _ _ (by positivity)]

/-- The number that a draw makes of 53 bits. -/
def gridDraw (k : Nat) : Binary64 :=
  ofMagnitude false (roundMagnitude k (2 * fractionCount))

theorem ofDraw_eq (w : UInt64) : ofDraw w = gridDraw (w >>> 11).toNat := rfl

theorem toNat_shiftRight_eleven (w : UInt64) :
    (w >>> 11).toNat = w.toNat / 2 ^ 11 := by
  rw [UInt64.toNat_shiftRight, Nat.shiftRight_eq_div_pow]
  rfl

theorem toNat_shiftRight_eleven_lt (w : UInt64) :
    (w >>> 11).toNat < 2 ^ 53 := by
  rw [toNat_shiftRight_eleven]
  have := w.toNat_lt
  omega

/-- The same 53 bits begin `2 ^ 11` words in a row. -/
theorem toNat_shiftRight_eleven_eq_iff (w : UInt64) (k : Nat) :
    (w >>> 11).toNat = k ↔
      w.toNat ∈ Finset.Ico (k * 2 ^ 11) (k * 2 ^ 11 + 2 ^ 11) := by
  rw [toNat_shiftRight_eleven, Finset.mem_Ico]
  omega

/-- Every number of 53 bits begins some word. -/
theorem exists_word {k : Nat} (hk : k < 2 ^ 53) :
    ∃ w : UInt64, (w >>> 11).toNat = k := by
  refine ⟨UInt64.ofNat (k * 2 ^ 11), ?_⟩
  have hFits : k * 2 ^ 11 < UInt64.size := by
    show k * 2 ^ 11 < 2 ^ 64
    omega
  rw [toNat_shiftRight_eleven, UInt64.toNat_ofNat_of_lt' hFits]
  exact Nat.mul_div_cancel k (Nat.two_pow_pos 11)

/-- No bit of a draw is rounded away. -/
theorem toRat?_gridDraw {k : Nat} (hk : k < 2 ^ 53) :
    (gridDraw k).toRat? = some ((k : ℚ) / 2 ^ 53) := by
  obtain ⟨m, hm, hValue⟩ := exists_valueOf_eq hk
  have hGrid : ((2 * fractionCount : Nat) : ℚ) = 2 ^ 53 := by
    rw [fractionCount_eq]
    norm_num
  have hRound : roundMagnitude k (2 * fractionCount) = m :=
    roundMagnitude_of_valueOf (by decide) hm.le (by rw [hGrid, hValue])
  rw [gridDraw, hRound, toRat?_ofMagnitude hm, hValue]

end ValueMix.Binary64
