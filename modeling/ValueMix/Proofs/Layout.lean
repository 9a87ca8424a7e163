import Mathlib
import ValueMix.Proofs.Thresholds
import ValueMix.Distribution.Basic

/-!
# The table of a distribution

A table that is laid out from positive marginals with sum one is in order:
its cumulative probabilities increase strictly, the last one is exactly one,
and every cell carries the threshold of its own cumulative probability.
Every lookup law rests on this invariant, `Tabulated`.

## Main results

* `cumulatives_ofMarginals` — setting the last cumulative probability to one
  changes nothing: the cumulative probabilities are the running sums.
* `marginals_ofMarginals` — the marginals of a table are those that it was
  laid out from.
* `tabulated_ofMarginals`, `tabulated_uniform` — the invariant holds.
-/

namespace ValueMix.Distribution

variable {α : Type}

/-! ## Running sums -/

/-- The sums of the initial segments of a list, counted from `below`. -/
def runningSums (below : ℚ) : List ℚ → List ℚ
  | [] => []
  | p :: rest => (below + p) :: runningSums (below + p) rest

/-- Differences undo sums. -/
@[simp] theorem steps_runningSums (below : ℚ) (ps : List ℚ) :
    steps below (runningSums below ps) = ps := by
  induction ps generalizing below with
  | nil => rfl
  | cons p rest ih =>
      rw [runningSums, steps, ih, add_sub_cancel_left]

/-- Sums undo differences. -/
@[simp] theorem runningSums_steps (below : ℚ) (cs : List ℚ) :
    runningSums below (steps below cs) = cs := by
  induction cs generalizing below with
  | nil => rfl
  | cons c rest ih =>
      rw [steps, runningSums, add_sub_cancel, ih]

@[simp] theorem length_steps (below : ℚ) (cs : List ℚ) :
    (steps below cs).length = cs.length := by
  induction cs generalizing below with
  | nil => rfl
  | cons c rest ih => simp [steps, ih]

theorem steps_pos {below : ℚ} {cs : List ℚ}
    (h : (below :: cs).Pairwise (· < ·)) : ∀ p ∈ steps below cs, 0 < p := by
  induction cs generalizing below with
  | nil => simp [steps]
  | cons c rest ih =>
      rw [List.pairwise_cons] at h
      rw [steps, List.forall_mem_cons]
      exact ⟨sub_pos.2 (h.1 c (by simp)), ih h.2⟩

theorem lt_of_mem_runningSums {below : ℚ} {ps : List ℚ}
    (hpos : ∀ p ∈ ps, 0 < p) {c : ℚ} (hc : c ∈ runningSums below ps) :
    below < c := by
  induction ps generalizing below with
  | nil => simp [runningSums] at hc
  | cons p rest ih =>
      have hp : 0 < p := hpos p (by simp)
      rcases List.mem_cons.1 hc with rfl | hRest
      · linarith
      · have := ih (fun q hq => hpos q (by simp [hq])) hRest
        linarith

/-- Running sums of positive numbers increase strictly. -/
theorem pairwise_runningSums {below : ℚ} {ps : List ℚ}
    (hpos : ∀ p ∈ ps, 0 < p) :
    (below :: runningSums below ps).Pairwise (· < ·) := by
  induction ps generalizing below with
  | nil => simp [runningSums]
  | cons p rest ih =>
      refine List.pairwise_cons.2 ⟨?_, ih fun q hq => hpos q (by simp [hq])⟩
      intro c hc
      exact lt_of_mem_runningSums hpos hc

theorem getLast?_runningSums (below : ℚ) {ps : List ℚ} (h : ps ≠ []) :
    (runningSums below ps).getLast? = some (below + ps.sum) := by
  induction ps generalizing below with
  | nil => exact absurd rfl h
  | cons p rest ih =>
      cases rest with
      | nil => simp [runningSums]
      | cons q rest =>
          have hNext := ih (below + p) (by simp)
          rw [runningSums, List.getLast?_cons, hNext]
          simp only [Option.getD_some, List.sum_cons, add_assoc]

/-! ## Laying out -/

@[simp] theorem map_value_layOut (below : ℚ) (shares : List (α × ℚ)) :
    (layOut below shares).map (·.value) = shares.map Prod.fst := by
  fun_induction layOut below shares with
  | case1 => rfl
  | case2 => rfl
  | case3 below v p next rest ih =>
      rw [List.map_cons, ih]
      rfl

/-- The last cell is set to end at one, where it would end anyway. -/
theorem map_upper_layOut {below : ℚ} {shares : List (α × ℚ)}
    (hsum : below + (shares.map Prod.snd).sum = 1) :
    (layOut below shares).map (·.upper) =
      runningSums below (shares.map Prod.snd) := by
  fun_induction layOut below shares with
  | case1 => rfl
  | case2 below v p =>
      have hp : below + p = 1 := by simpa using hsum
      simp [Cell.endingAt, runningSums, hp]
  | case3 below v p next rest ih =>
      have hRest : below + p + ((next :: rest).map Prod.snd).sum = 1 := by
        rw [List.map_cons, List.sum_cons] at hsum
        linarith
      rw [List.map_cons, List.map_cons, ih hRest]
      rfl

private theorem threshold_endingAt (v : α) (upper : ℚ) :
    (Cell.endingAt v upper).threshold =
      Binary64.threshold (Cell.endingAt v upper).upper := by
  unfold Cell.endingAt
  rfl

theorem threshold_of_mem_layOut {below : ℚ} {shares : List (α × ℚ)}
    {c : Cell α} (hc : c ∈ layOut below shares) :
    c.threshold = Binary64.threshold c.upper := by
  fun_induction layOut below shares with
  | case1 => simp at hc
  | case2 below v p =>
      obtain rfl := List.mem_singleton.1 hc
      exact threshold_endingAt v 1
  | case3 below v p next rest ih =>
      rcases List.mem_cons.1 hc with rfl | hRest
      · exact threshold_endingAt v (below + p)
      · exact ih hRest

/-! ## The invariant -/

/-- A table is in order: its cells end at increasing points above zero, the
last one at one, and carry the thresholds of these points. -/
structure Tabulated (d : Distribution α) : Prop where
  increasing : (0 :: d.cumulatives).Pairwise (· < ·)
  last : d.cumulatives.getLast? = some 1
  thresholds : ∀ c ∈ d.cells.toList, c.threshold = Binary64.threshold c.upper

@[simp] theorem length_cumulatives (d : Distribution α) :
    d.cumulatives.length = d.size := by
  simp [cumulatives, size]

@[simp] theorem length_values (d : Distribution α) :
    d.values.length = d.size := by
  simp [values, size]

namespace Tabulated

variable {d : Distribution α}

theorem cumulative_pos (h : Tabulated d) {c : ℚ} (hc : c ∈ d.cumulatives) :
    0 < c :=
  (List.pairwise_cons.1 h.increasing).1 c hc

theorem cumulative_le_one (h : Tabulated d) {c : ℚ}
    (hc : c ∈ d.cumulatives) : c ≤ 1 := by
  obtain ⟨front, hfront⟩ := List.getLast?_eq_some_iff.1 h.last
  have hsorted := (List.pairwise_cons.1 h.increasing).2
  rw [hfront] at hc hsorted
  rcases List.mem_append.1 hc with hmem | hmem
  · exact ((List.pairwise_append.1 hsorted).2.2 c hmem 1 (by simp)).le
  · exact (List.mem_singleton.1 hmem).le

theorem marginals_pos (h : Tabulated d) : ∀ p ∈ d.marginals, 0 < p :=
  steps_pos h.increasing

/-- The marginal probabilities add up to one. -/
theorem sum_marginals (h : Tabulated d) : d.marginals.sum = 1 := by
  have hne : d.marginals ≠ [] := by
    intro hNil
    have hLength := congrArg List.length hNil
    rw [marginals, length_steps, length_cumulatives] at hLength
    exact absurd hLength d.cells_pos.ne'
  have hLast := getLast?_runningSums 0 hne
  rw [marginals, runningSums_steps, h.last, zero_add,
    Option.some.injEq] at hLast
  exact hLast.symm

end Tabulated

@[simp] theorem length_marginals (d : Distribution α) :
    d.marginals.length = d.size := by
  rw [marginals, length_steps, length_cumulatives]

theorem map_fst_entries (d : Distribution α) :
    d.entries.map Prod.fst = d.values :=
  List.map_fst_zip (by rw [length_values, length_marginals])

theorem map_snd_entries (d : Distribution α) :
    d.entries.map Prod.snd = d.marginals :=
  List.map_snd_zip (by rw [length_values, length_marginals])

section OfMarginals

variable {shares : List (α × ℚ)} (h : shares ≠ [])

theorem values_ofMarginals :
    (ofMarginals shares h).values = shares.map Prod.fst := by
  simp [values, ofMarginals]

/-- Setting the last cumulative probability to one changes nothing. -/
theorem cumulatives_ofMarginals (hsum : (shares.map Prod.snd).sum = 1) :
    (ofMarginals shares h).cumulatives =
      runningSums 0 (shares.map Prod.snd) :=
  map_upper_layOut (by rw [hsum, zero_add])

theorem marginals_ofMarginals (hsum : (shares.map Prod.snd).sum = 1) :
    (ofMarginals shares h).marginals = shares.map Prod.snd := by
  rw [marginals, cumulatives_ofMarginals h hsum, steps_runningSums]

theorem tabulated_ofMarginals (hsum : (shares.map Prod.snd).sum = 1)
    (hpos : ∀ p ∈ shares.map Prod.snd, 0 < p) :
    Tabulated (ofMarginals shares h) where
  increasing := by
    rw [cumulatives_ofMarginals h hsum]
    exact pairwise_runningSums hpos
  last := by
    rw [cumulatives_ofMarginals h hsum, getLast?_runningSums, hsum, zero_add]
    simpa using h
  thresholds := fun _ hc => threshold_of_mem_layOut hc

end OfMarginals

/-- The table of a single value, whose threshold is written down without a
search, is in order as well. -/
theorem tabulated_uniform (v : α) : Tabulated (uniform v) where
  increasing := by simp [cumulatives, uniform]
  last := rfl
  thresholds := by
    intro c hc
    rw [List.mem_singleton.1 hc]
    exact Binary64.threshold_one.symm

end ValueMix.Distribution
