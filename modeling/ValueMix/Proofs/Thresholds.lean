import Mathlib
import ValueMix.Proofs.Magnitudes

/-!
# Thresholds are exact

The search for a threshold ends at the least magnitude whose value is not
below the given probability, wherever it starts. So a number reaches the
threshold exactly when its exact value reaches the probability.

## Main results

* `threshold_eq` — the threshold of a probability is the least number that
  is not below it.
* `thresholdFrom_eq_threshold` — it is the same for every estimate.
* `threshold_le_iff` — comparing with a threshold is comparing exactly.
* `threshold_one` — the threshold of one is one.
-/

namespace ValueMix.Binary64

/-- `m` is the least magnitude whose value is not below `p`. -/
def LeastReaching (p : ℚ) (m : Nat) : Prop := ∀ k, m ≤ k ↔ p ≤ valueOf k

theorem LeastReaching.unique {p : ℚ} {m n : Nat} (hm : LeastReaching p m)
    (hn : LeastReaching p n) : m = n :=
  Nat.le_antisymm ((hm n).2 ((hn n).1 (Nat.le_refl n)))
    ((hn m).2 ((hm m).1 (Nat.le_refl m)))

theorem LeastReaching.le_oneMagnitude {p : ℚ} {m : Nat}
    (h : LeastReaching p m) (hp : p ≤ 1) : m ≤ oneMagnitude := by
  rw [h, valueOf_oneMagnitude]
  exact hp

/-! ## The search -/

/-- Going up ends at a finite magnitude that is not below `p`: the largest
one is far above one. -/
theorem ascend_reaches {p : ℚ} (hp : p ≤ 1) {m : Nat}
    (hm : m < infinityMagnitude) :
    ascend p m < infinityMagnitude ∧ p ≤ valueOf (ascend p m) := by
  fun_induction ascend p m with
  | case1 m hstep ih => exact ih hstep.1
  | case2 m hstop =>
      refine ⟨hm, ?_⟩
      by_cases hlast : m + 1 < infinityMagnitude
      · exact not_lt.1 fun hlow => hstop ⟨hlast, hlow⟩
      · have hone : oneMagnitude ≤ m := by
          have := oneMagnitude_lt
          omega
        calc p ≤ 1 := hp
          _ = valueOf oneMagnitude := valueOf_oneMagnitude.symm
          _ ≤ valueOf m := valueOf_le_valueOf.2 hone

/-- Going down from a magnitude that is not below `p` ends at the least
one. -/
theorem descend_least {p : ℚ} {m : Nat} (h : p ≤ valueOf m) :
    LeastReaching p (descend p m) := by
  induction m with
  | zero =>
      intro k
      have hk : valueOf 0 ≤ valueOf k := valueOf_le_valueOf.2 (Nat.zero_le k)
      simp only [descend, Nat.zero_le, true_iff]
      exact h.trans hk
  | succ m ih =>
      rw [descend]
      split
      · rename_i hbelow
        exact ih hbelow
      · rename_i hbelow
        intro k
        constructor
        · intro hk
          exact h.trans (valueOf_le_valueOf.2 hk)
        · intro hk
          by_contra hlow
          have : valueOf k ≤ valueOf m := valueOf_le_valueOf.2 (by omega)
          exact hbelow (hk.trans this)

/-- The search may start at any number but a finite one with the sign bit
set. -/
def Estimates (e : Binary64) : Prop := e.negative = false ∨ e.isFinite = false

theorem searchStart_spec {e : Binary64} (h : Estimates e) :
    (searchStart e).negative = false ∧
      (searchStart e).magnitude < infinityMagnitude := by
  have hzero : zero.negative = false ∧ zero.magnitude < infinityMagnitude := by
    decide
  unfold searchStart
  split
  · rename_i hstart
    have hfinite : e.isFinite = true := (Bool.and_eq_true _ _ ▸ hstart).1
    rcases h with hsign | hinf
    · exact ⟨hsign, of_decide_eq_true hfinite⟩
    · rw [hinf] at hfinite
      contradiction
  · exact hzero

/-- The search ends at the least number that is not below `p`, wherever it
starts. -/
theorem thresholdFrom_eq {e : Binary64} (he : Estimates e) {p : ℚ}
    (hp : p ≤ 1) :
    ∃ m, thresholdFrom e p = ofMagnitude false m ∧ LeastReaching p m := by
  obtain ⟨hsign, hlt⟩ := searchStart_spec he
  obtain ⟨-, hreach⟩ := ascend_reaches hp hlt
  refine ⟨_, ?_, descend_least hreach⟩
  unfold thresholdFrom
  simp only [hsign, Bool.false_eq_true, if_false]

/-! ## The estimate -/

private theorem roundMagnitude_le (n d : Nat) :
    roundMagnitude n d ≤ infinityMagnitude := by
  unfold roundMagnitude
  split
  · exact Nat.zero_le _
  · exact Nat.min_le_right _ _

private theorem negative_rounded (s : Bool) (n d : Nat) :
    (ofMagnitude s (roundMagnitude n d)).negative = s :=
  negative_ofMagnitude
    (Nat.lt_of_le_of_lt (roundMagnitude_le n d) infinityMagnitude_lt)

private theorem negative_div {x y : Binary64} (hx : x.negative = false)
    (hy : y.negative = false) : (div x y).negative = false := by
  have hinf := negative_ofMagnitude (s := false) infinityMagnitude_lt
  have hnan : nan.negative = false := by decide
  have hzero := negative_ofMagnitude (s := false) (Nat.two_pow_pos 63)
  have hround := negative_rounded false
  simp only [div, hx, hy, bne_self_eq_false]
  split_ifs <;> first | assumption | exact hround _ _

/-- The rounded quotient of a number that is not negative has no sign. -/
theorem quotient_estimates {p : ℚ} (hp : 0 ≤ p) : Estimates (quotient p) := by
  refine Or.inl (negative_div ?_ (negative_rounded false _ _))
  have hnum : ¬ p.num < 0 := not_lt.2 (Rat.num_nonneg.2 hp)
  rw [ofInt, negative_rounded]
  exact decide_eq_false hnum

/-! ## Thresholds -/

/-- The threshold of a probability is the least number that is not below
it. -/
theorem threshold_eq {p : ℚ} (h0 : 0 ≤ p) (h1 : p ≤ 1) :
    ∃ m, threshold p = ofMagnitude false m ∧ LeastReaching p m :=
  thresholdFrom_eq (quotient_estimates h0) h1

section Threshold

variable {p : ℚ} (h0 : 0 ≤ p) (h1 : p ≤ 1)

include h0 h1

theorem threshold_plain : (threshold p).Plain := by
  obtain ⟨m, hm, hLeast⟩ := threshold_eq h0 h1
  rw [hm]
  exact plain_ofMagnitude
    (lt_of_le_of_lt (hLeast.le_oneMagnitude h1) oneMagnitude_lt)

/-- The threshold does not depend on the estimate that it is searched from. -/
theorem thresholdFrom_eq_threshold {e : Binary64} (he : Estimates e) :
    thresholdFrom e p = threshold p := by
  obtain ⟨m, hm, hLeast⟩ := thresholdFrom_eq he h1
  obtain ⟨n, hn, hLeast'⟩ := threshold_eq h0 h1
  rw [hm, hn, hLeast.unique hLeast']

/-- A magnitude is at least that of the threshold if its value reaches `p`. -/
theorem leastReaching_threshold : LeastReaching p (threshold p).magnitude := by
  obtain ⟨m, hm, hLeast⟩ := threshold_eq h0 h1
  have hLt := lt_of_le_of_lt (hLeast.le_oneMagnitude h1) oneMagnitude_lt
  rw [hm, magnitude_ofMagnitude (hLt.trans infinityMagnitude_lt)]
  exact hLeast

/-- The threshold itself is not below `p`. -/
theorem le_toRat_threshold : p ≤ (threshold p).toRat := by
  rw [(threshold_plain h0 h1).toRat_eq, ← leastReaching_threshold h0 h1]

/-- The value of a finite number reaches `p` if it reaches the threshold. -/
theorem toRat_threshold_le_iff {x : Binary64} (hx : x.isFinite = true) :
    (threshold p).toRat ≤ x.toRat ↔ p ≤ x.toRat := by
  have hLeast := leastReaching_threshold h0 h1
  constructor
  · exact (le_toRat_threshold h0 h1).trans
  · intro hReached
    rw [(threshold_plain h0 h1).toRat_eq]
    cases hSign : x.negative with
    | false =>
        have hPlain : x.Plain := ⟨hx, hSign⟩
        rw [hPlain.toRat_eq] at hReached ⊢
        exact valueOf_le_valueOf.2 ((hLeast _).2 hReached)
    | true =>
        -- then `p` is zero, and so is its threshold
        have hZero : p ≤ valueOf 0 := by
          rw [valueOf_zero]
          exact hReached.trans (toRat_nonpos hSign)
        have hLow := valueOf_le_valueOf.2 ((hLeast 0).2 hZero)
        rw [valueOf_zero] at hLow
        exact hLow.trans (h0.trans hReached)

end Threshold

theorem threshold_one : threshold 1 = one := by
  obtain ⟨m, hm, hleast⟩ := threshold_eq (p := 1) (by norm_num) (le_refl 1)
  have hone : LeastReaching 1 oneMagnitude := by
    intro k
    rw [← valueOf_oneMagnitude, valueOf_le_valueOf]
  rw [hm, hleast.unique hone, one_eq]

/-- Whether a number is at least `p`: infinity is, and `NaN` is not. -/
def Reaches (x : Binary64) (p : ℚ) : Prop :=
  match x.toRat? with
  | some q => p ≤ q
  | none => (x.isNaN || x.negative) = false

/-- Comparing with a threshold is comparing exactly, for every number. -/
theorem threshold_le_iff {p : ℚ} (h0 : 0 ≤ p) (h1 : p ≤ 1) (x : Binary64) :
    (threshold p).le x = true ↔ x.Reaches p := by
  have hPlain := threshold_plain h0 h1
  by_cases hx : x.isFinite = true
  · rw [Reaches, toRat_of_finite hx, toRat_le_iff hPlain.finite hx]
    exact toRat_threshold_le_iff h0 h1 hx
  · have hNone : x.toRat? = none := by rw [toRat?, if_neg hx]
    rw [Reaches, hNone]
    exact hPlain.le_iff_of_not_finite hx

theorem Reaches.mono {x : Binary64} {p q : ℚ} (h : x.Reaches q) (hpq : p ≤ q) :
    x.Reaches p := by
  unfold Reaches at h ⊢
  split at h
  · exact hpq.trans h
  · exact h

/-- Whoever reaches a threshold reaches those of all smaller probabilities. -/
theorem threshold_le_of_le {p q : ℚ} (h0 : 0 ≤ p) (hpq : p ≤ q) (h1 : q ≤ 1)
    {x : Binary64} (h : (threshold q).le x = true) :
    (threshold p).le x = true := by
  rw [threshold_le_iff (h0.trans hpq) h1] at h
  rw [threshold_le_iff h0 (hpq.trans h1)]
  exact h.mono hpq

end ValueMix.Binary64
