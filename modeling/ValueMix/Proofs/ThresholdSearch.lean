import Mathlib
import ValueMix.Proofs.Thresholds

/-!
# The search for a threshold, step by step

The search for a threshold walks over bit patterns: up by one while the number
is below the probability, then down by one while its predecessor is not. No
bound is built into its steps. Started at any number that is not negative, it
only visits finite numbers that are not negative, it ends, and it ends at the
threshold.

## Main results

* `step_plain` — a step stays among finite numbers that are not negative.
* `walks_rise`, `walks_fall` — where the two walks end.
* `search_threshold` — the whole search, from any estimate.
-/

namespace ValueMix.Binary64

/-! ## Neighbours -/

/-- The number whose bits are one more. -/
def next (x : Binary64) : Binary64 := ⟨x.bits + 1⟩

/-- The number whose bits are one less. -/
def previous (x : Binary64) : Binary64 := ⟨x.bits - 1⟩

theorem next_ofMagnitude (m : Nat) :
    (ofMagnitude false m).next = ofMagnitude false (m + 1) := by
  show (⟨UInt64.ofNat m + 1⟩ : Binary64) = ⟨UInt64.ofNat (m + 1)⟩
  rw [UInt64.ofNat_add]
  rfl

theorem previous_ofMagnitude (m : Nat) :
    (ofMagnitude false (m + 1)).previous = ofMagnitude false m := by
  show (⟨UInt64.ofNat (m + 1) - 1⟩ : Binary64) = ⟨UInt64.ofNat m⟩
  rw [UInt64.ofNat_add]
  congr 1
  exact add_sub_cancel_right _ _

namespace Plain

variable {x : Binary64} (h : x.Plain)

include h

/-- Above a number below one there is another finite number. -/
theorem next_plain {p : ℚ} (hp : p ≤ 1) (hLow : x.toRat < p) :
    x.next.Plain ∧ x.next.bits.toNat = x.bits.toNat + 1 := by
  have hOne : x.magnitude < oneMagnitude := by
    rw [← valueOf_strictMono.lt_iff_lt, valueOf_oneMagnitude, ← h.toRat_eq]
    exact hLow.trans_le hp
  have hNext : x.magnitude + 1 < infinityMagnitude :=
    lt_of_le_of_lt hOne oneMagnitude_lt
  have hPlain : x.next.Plain := by
    rw [h.eq_ofMagnitude, next_ofMagnitude]
    exact plain_ofMagnitude hNext
  refine ⟨hPlain, ?_⟩
  rw [hPlain.bits_eq, h.bits_eq]
  conv_lhs => rw [h.eq_ofMagnitude, next_ofMagnitude]
  exact magnitude_ofMagnitude (hNext.trans infinityMagnitude_lt)

/-- Below a positive number there is one that is not negative. -/
theorem previous_plain (hPos : zero.lt x = true) :
    x.previous.Plain ∧ x.previous.bits.toNat + 1 = x.bits.toNat := by
  have hLt := h.magnitude_lt
  have hPositive : 0 < x.magnitude := by
    rw [← zero_lt_ofMagnitude hLt, ← h.eq_ofMagnitude]
    exact hPos
  obtain ⟨m, hm⟩ := Nat.exists_eq_succ_of_ne_zero hPositive.ne'
  have hPrevious : x.previous = ofMagnitude false m := by
    rw [h.eq_ofMagnitude, hm]
    exact previous_ofMagnitude m
  have hBelow : m < infinityMagnitude := by omega
  have hPlain := plain_ofMagnitude hBelow
  rw [hPrevious, hPlain.bits_eq, h.bits_eq, hm,
    magnitude_ofMagnitude (hBelow.trans infinityMagnitude_lt)]
  exact ⟨hPlain, rfl⟩

end Plain

/-! ## Steps -/

/-- Where the search stands: at a number, on the way up or on the way down. -/
inductive Search where
  | rising (x : Binary64)
  | falling (x : Binary64)

namespace Search

/-- The number that the search stands at. -/
def number : Search → Binary64
  | rising x => x
  | falling x => x

/-- A step of the search for `p`, or none where the search ends. The way up
goes on below `p`, and the way down while the predecessor is not below `p`. -/
def step (p : ℚ) : Search → Option Search
  | rising x => some (if x.toRat < p then rising x.next else falling x)
  | falling x =>
      if zero.lt x = true ∧ p ≤ x.previous.toRat then some (falling x.previous)
      else none

/-- Some steps of the search for `p` lead from one state to another. -/
def Leads (p : ℚ) : Search → Search → Prop :=
  Relation.ReflTransGen fun s s' => s.step p = some s'

variable {p : ℚ}

/-- A step stays among finite numbers that are not negative. -/
theorem step_plain (hp : p ≤ 1) {s s' : Search} (h : s.number.Plain)
    (hStep : s.step p = some s') : s'.number.Plain := by
  cases s with
  | rising x =>
      rw [step, Option.some.injEq] at hStep
      subst hStep
      split
      · rename_i hLow
        exact (Plain.next_plain h hp hLow).1
      · exact h
  | falling x =>
      rw [step, Option.ite_none_right_eq_some, Option.some.injEq] at hStep
      obtain ⟨⟨hPos, -⟩, rfl⟩ := hStep
      exact (Plain.previous_plain h hPos).1

theorem leads_plain (hp : p ≤ 1) {s s' : Search} (h : s.number.Plain)
    (hLeads : Leads p s s') : s'.number.Plain := by
  induction hLeads with
  | refl => exact h
  | tail _ hStep ih => exact step_plain hp ih hStep

/-- There is only one way to search. -/
theorem leads_of_leads {s s' t : Search} (h : Leads p s s') (ht : Leads p s t)
    (hEnd : t.step p = none) : Leads p s' t := by
  have hUnique :
      Relator.RightUnique fun s s' : Search => s.step p = some s' := by
    intro a b c hb hc
    exact Option.some.inj (hb.symm.trans hc)
  rcases Relation.ReflTransGen.total_of_right_unique hUnique h ht with
    hOn | hBack
  · exact hOn
  · rcases Relation.ReflTransGen.cases_head hBack with rfl | ⟨u, hStep, -⟩
    · exact Relation.ReflTransGen.refl
    · rw [hEnd] at hStep
      cases hStep

/-! ## The two walks -/

section Walks

variable {m : Nat} (hm : m < infinityMagnitude)

include hm

/-- The way up ends at the first number that is not below `p`; the largest
finite number is never what ends it. -/
theorem walks_rise (hp : p ≤ 1) :
    Leads p (rising (ofMagnitude false m))
      (falling (ofMagnitude false (ascend p m))) := by
  fun_induction ascend p m with
  | case1 m hGuard ih =>
      have hStep : (rising (ofMagnitude false m)).step p =
          some (rising (ofMagnitude false (m + 1))) := by
        rw [step, toRat_ofMagnitude hm, if_pos hGuard.2, next_ofMagnitude]
      exact Relation.ReflTransGen.head hStep (ih hGuard.1)
  | case2 m hStop =>
      have hReached := (ascend_reaches hp hm).2
      rw [ascend, if_neg hStop] at hReached
      refine Relation.ReflTransGen.single ?_
      show (rising (ofMagnitude false m)).step p = _
      rw [step, toRat_ofMagnitude hm, if_neg (not_lt.2 hReached)]

/-- The way down ends where the predecessor is below `p`, or at zero. -/
theorem walks_fall :
    Leads p (falling (ofMagnitude false m))
        (falling (ofMagnitude false (descend p m))) ∧
      (falling (ofMagnitude false (descend p m))).step p = none := by
  induction m with
  | zero =>
      refine ⟨Relation.ReflTransGen.refl, ?_⟩
      have hZero : ¬ zero.lt (ofMagnitude false 0) = true := by decide
      rw [descend, step, if_neg fun h => hZero h.1]
  | succ m ih =>
      have hBelow : m < infinityMagnitude := by omega
      have hValue : (ofMagnitude false (m + 1)).previous.toRat = valueOf m := by
        rw [previous_ofMagnitude, toRat_ofMagnitude hBelow]
      rw [descend]
      split
      · rename_i hReached
        have hStep : (falling (ofMagnitude false (m + 1))).step p =
            some (falling (ofMagnitude false m)) := by
          rw [step, hValue, previous_ofMagnitude, if_pos]
          exact ⟨(zero_lt_ofMagnitude hm).2 (Nat.succ_pos m), hReached⟩
        have hRest := ih hBelow
        exact ⟨Relation.ReflTransGen.head hStep hRest.1, hRest.2⟩
      · rename_i hMissed
        refine ⟨Relation.ReflTransGen.refl, ?_⟩
        rw [step, hValue, if_neg fun h => hMissed h.2]

end Walks

/-- From any estimate the search ends at the threshold. -/
theorem leads_thresholdFrom (hp : p ≤ 1) {e : Binary64} (he : Estimates e) :
    Leads p (rising (searchStart e)) (falling (thresholdFrom e p)) ∧
      (falling (thresholdFrom e p)).step p = none := by
  obtain ⟨hSign, hLt⟩ := searchStart_spec he
  have hStart : (searchStart e).Plain := ⟨decide_eq_true hLt, hSign⟩
  have hFrom : thresholdFrom e p =
      ofMagnitude false (descend p (ascend p (searchStart e).magnitude)) := by
    unfold thresholdFrom
    simp only [hSign, Bool.false_eq_true, if_false]
  have hRise := walks_rise hLt hp
  rw [← hStart.eq_ofMagnitude] at hRise
  have hFall := walks_fall (p := p) (ascend_reaches hp hLt).1
  rw [hFrom]
  exact ⟨hRise.trans hFall.1, hFall.2⟩

end Search

/-! ## The threshold found -/

theorem Plain.reaches_iff {x : Binary64} (h : x.Plain) (p : ℚ) :
    x.Reaches p ↔ p ≤ x.toRat := by
  rw [Reaches, toRat_of_finite h.finite]

section Threshold

variable {p : ℚ} (h0 : 0 ≤ p) (h1 : p ≤ 1)

include h0 h1

theorem threshold_mono {q : ℚ} (hpq : p ≤ q) (hq : q ≤ 1) :
    (threshold p).le (threshold q) = true := by
  have h0' := h0.trans hpq
  rw [threshold_le_iff h0 h1, (threshold_plain h0' hq).reaches_iff]
  exact hpq.trans (le_toRat_threshold h0' hq)

/-- The threshold of the value of a number is that number, up to the sign of
zero. -/
theorem threshold_of_toRat? {x : Binary64} (hx : x.toRat? = some p) :
    (threshold p).le x = true ∧ x.le (threshold p) = true ∧
      (x.negative = false → threshold p = x) := by
  have hFinite : x.isFinite = true := by
    by_contra hInfinite
    rw [toRat?, if_neg hInfinite] at hx
    cases hx
  have hValue : x.toRat = p := by rw [toRat, hx, Option.getD_some]
  refine ⟨?_, ?_, fun hSign => ?_⟩
  · rw [threshold_le_iff h0 h1, Reaches, hx]
  · rw [toRat_le_iff hFinite (threshold_plain h0 h1).finite, hValue]
    exact le_toRat_threshold h0 h1
  · have hPlain : x.Plain := ⟨hFinite, hSign⟩
    have hOwn : LeastReaching p x.magnitude := by
      intro k
      rw [← hValue, hPlain.toRat_eq, valueOf_le_valueOf]
    rw [(threshold_plain h0 h1).eq_ofMagnitude,
      (leastReaching_threshold h0 h1).unique hOwn]
    exact hPlain.eq_ofMagnitude.symm

/-- Thresholds of probabilities lie in `[0, 1]`. -/
theorem threshold_mem_Icc :
    zero.le (threshold p) = true ∧ (threshold p).le one = true := by
  have hZero : zero.isFinite = true ∧ zero.toRat = 0 := by decide +kernel
  have hOne : one.toRat? = some 1 := by decide +kernel
  constructor
  · rw [toRat_le_iff hZero.1 (threshold_plain h0 h1).finite, hZero.2]
    exact h0.trans (le_toRat_threshold h0 h1)
  · rw [threshold_le_iff h0 h1, Reaches, hOne]
    exact h1

end Threshold

/-- **The search for a threshold.** Whatever the estimate is, every number that
the search for a probability visits is finite and not negative, and no step
carries its bits over. Every search that has begun ends, at a number that does
not depend on the estimate. It is the least number that is not below `p`:
any number reaches it exactly if it reaches `p`. So thresholds are ordered as
the probabilities are, the value of a number has that number as its threshold,
and all of them lie in `[0, 1]`. -/
theorem search_threshold {p : ℚ} (h0 : 0 ≤ p) (h1 : p ≤ 1) {e : Binary64}
    (he : Estimates e) :
    let start := Search.rising (searchStart e)
    let t := thresholdFrom e p
    (∀ s, Search.Leads p start s →
      s.number.isFinite = true ∧ s.number.negative = false) ∧
    (∀ x, Search.Leads p start (.rising x) → x.toRat < p →
      x.next.isFinite = true ∧ x.next.bits.toNat = x.bits.toNat + 1) ∧
    (∀ x, Search.Leads p start (.falling x) → zero.lt x = true →
      x.previous.isFinite = true ∧ x.previous.bits.toNat + 1 = x.bits.toNat) ∧
    (∀ s, Search.Leads p start s → Search.Leads p s (.falling t)) ∧
    (Search.falling t).step p = none ∧
    t = threshold p ∧
    (∀ x : Binary64, t.le x = true ↔ x.Reaches p) ∧
    (∀ q, p ≤ q → q ≤ 1 → ∀ e', Estimates e' →
      t.le (thresholdFrom e' q) = true) ∧
    (∀ x : Binary64, x.toRat? = some p →
      t.le x = true ∧ x.le t = true ∧ (x.negative = false → t = x)) ∧
    zero.le t = true ∧ t.le one = true := by
  intro start t
  have ht : t = threshold p := thresholdFrom_eq_threshold h0 h1 he
  obtain ⟨hSign, hLt⟩ := searchStart_spec he
  have hStart : start.number.Plain := ⟨decide_eq_true hLt, hSign⟩
  obtain ⟨hEnds, hDone⟩ := Search.leads_thresholdFrom h1 he
  refine ⟨?_, ?_, ?_, ?_, hDone, ht, ?_, ?_, ?_, ?_⟩
  · intro s hs
    have hPlain := Search.leads_plain h1 hStart hs
    exact ⟨hPlain.finite, hPlain.unsigned⟩
  · intro x hx hLow
    have hPlain : x.Plain := Search.leads_plain h1 hStart hx
    have hNext := hPlain.next_plain h1 hLow
    exact ⟨hNext.1.finite, hNext.2⟩
  · intro x hx hPos
    have hPlain : x.Plain := Search.leads_plain h1 hStart hx
    have hPrevious := hPlain.previous_plain hPos
    exact ⟨hPrevious.1.finite, hPrevious.2⟩
  · intro s hs
    exact Search.leads_of_leads hs hEnds hDone
  · intro x
    rw [ht]
    exact threshold_le_iff h0 h1 x
  · intro q hpq hq e' he'
    rw [ht, thresholdFrom_eq_threshold (h0.trans hpq) hq he']
    exact threshold_mono h0 h1 hpq hq
  · intro x hx
    rw [ht]
    exact threshold_of_toRat? h0 h1 hx
  · rw [ht]
    exact threshold_mem_Icc h0 h1

/-- Searched from `NaN`, the threshold of three tenths is above the number that
is nearest to them, which is smaller. -/
theorem search_threshold_tenths :
    (0 : ℚ) ≤ 3 / 10 ∧ (3 / 10 : ℚ) ≤ 1 ∧ Estimates nan ∧
      (thresholdFrom nan (3 / 10)).le ⟨0x3fd3333333333333⟩ = false ∧
      (thresholdFrom nan (3 / 10)).le ⟨0x3fd3333333333334⟩ = true := by
  have h0 : (0 : ℚ) ≤ 3 / 10 := by norm_num
  have h1 : (3 / 10 : ℚ) ≤ 1 := by norm_num
  have he : Estimates nan := Or.inl (by decide)
  have hLow : (Binary64.mk 0x3fd3333333333333).toRat < 3 / 10 := by
    decide +kernel
  have hHigh : 3 / 10 ≤ (Binary64.mk 0x3fd3333333333334).toRat := by
    decide +kernel
  have hPlain : (Binary64.mk 0x3fd3333333333333).Plain ∧
      (Binary64.mk 0x3fd3333333333334).Plain :=
    ⟨⟨by decide, by decide⟩, ⟨by decide, by decide⟩⟩
  have hReaches := (search_threshold h0 h1 he).2.2.2.2.2.2.1
  refine ⟨h0, h1, he, ?_, ?_⟩
  · rw [Bool.eq_false_iff, ne_eq, hReaches, hPlain.1.reaches_iff, not_le]
    exact hLow
  · rw [hReaches, hPlain.2.reaches_iff]
    exact hHigh

end ValueMix.Binary64
