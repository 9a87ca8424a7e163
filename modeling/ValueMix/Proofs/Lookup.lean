import Mathlib
import ValueMix.Proofs.Creation

/-!
# Lookup is exact

The index of a draw is found by a binary search over thresholds. It is the
number of cumulative probabilities that the exact value of the draw reaches,
up to the last index.

## Main results

* `search_eq` — the search finds where a table is split.
* `Tabulated.indexAt_eq` — searching thresholds is counting cumulative
  probabilities.
* `indexAt_exact` — the index of every draw, for every distribution that can
  be built.
-/

namespace ValueMix.Distribution

variable {α : Type}

/-! ## The search -/

/-- Where the thresholds up to `k` are reached and the others are not, the
search finds `k`. -/
theorem search_eq {cells : Array (Cell α)} {x : Binary64} {k : Nat}
    (hsplit : ∀ i, (h : i < cells.size) →
      (cells[i].threshold.le x = true ↔ i < k))
    (lo hi : Nat) (h : hi ≤ cells.size) (hlo : lo ≤ k) (hhi : k ≤ hi) :
    search cells x lo hi h = k := by
  fun_induction search cells x lo hi h with
  | case1 lo hi h hlt mid hmid hreached ih =>
      have hBelow : mid < k := (hsplit mid hmid).1 hreached
      exact ih (by omega) hhi
  | case2 lo hi h hlt mid hmid hmissed ih =>
      have hAbove : ¬ mid < k := fun hBelow =>
        hmissed ((hsplit mid hmid).2 hBelow)
      exact ih hlo (by omega)
  | case3 lo hi h hlt => omega

/-- In increasing order, the numbers up to `q` come first. -/
theorem getElem_le_iff_lt_countP {cs : List ℚ} (hsorted : cs.Pairwise (· < ·))
    (q : ℚ) {i : Nat} (hi : i < cs.length) :
    cs[i] ≤ q ↔ i < cs.countP (· ≤ q) := by
  induction cs generalizing i with
  | nil => simp at hi
  | cons c rest ih =>
      obtain ⟨hFirst, hRest⟩ := List.pairwise_cons.1 hsorted
      by_cases hc : c ≤ q
      · rw [List.countP_cons_of_pos (by simpa using hc)]
        cases i with
        | zero => simpa using hc
        | succ i =>
            rw [List.getElem_cons_succ, ih hRest]
            omega
      · have hNone : rest.countP (· ≤ q) = 0 := by
          refine List.countP_eq_zero.2 fun b hb => ?_
          have := hFirst b hb
          simp only [decide_eq_true_eq]
          linarith
        rw [List.countP_cons_of_neg (by simpa using hc), hNone]
        simp only [Nat.not_lt_zero, iff_false]
        cases i with
        | zero => exact hc
        | succ i =>
            have := hFirst _ (List.getElem_mem (Nat.lt_of_succ_lt_succ hi))
            rw [List.getElem_cons_succ]
            linarith

namespace Tabulated

variable {d : Distribution α}

/-- The thresholds that a draw reaches belong to the cumulative
probabilities that its exact value reaches. -/
theorem threshold_le_iff (h : Tabulated d) (x : Binary64) {i : Nat}
    (hi : i < d.cells.size) :
    d.cells[i].threshold.le x = true ↔ x.Reaches d.cells[i].upper := by
  have hCell : d.cells[i] ∈ d.cells.toList := by
    simp [Array.getElem_mem hi]
  have hUpper : d.cells[i].upper ∈ d.cumulatives :=
    List.mem_map.2 ⟨_, hCell, rfl⟩
  rw [h.thresholds _ hCell]
  exact Binary64.threshold_le_iff (h.cumulative_pos hUpper).le
    (h.cumulative_le_one hUpper) x

/-- The number of thresholds that a draw reaches. -/
def reached (d : Distribution α) (x : Binary64) : Nat :=
  match x.toRat? with
  | some q => d.cumulatives.countP (· ≤ q)
  | none => if x.isNaN || x.negative then 0 else d.size

theorem reached_le_size (d : Distribution α) (x : Binary64) :
    reached d x ≤ d.size := by
  unfold reached
  split
  · rw [← length_cumulatives]
    exact List.countP_le_length
  · split
    · exact Nat.zero_le _
    · exact Nat.le_refl _

/-- The thresholds that a draw reaches are the first ones. -/
theorem threshold_le_iff_lt_reached (h : Tabulated d) (x : Binary64) {i : Nat}
    (hi : i < d.cells.size) :
    d.cells[i].threshold.le x = true ↔ i < reached d x := by
  have hSorted := (List.pairwise_cons.1 h.increasing).2
  have hLength : i < d.cumulatives.length := by simpa [size] using hi
  have hGet : d.cells[i].upper = d.cumulatives[i] := by simp [cumulatives]
  rw [h.threshold_le_iff x hi, Binary64.Reaches, reached]
  cases x.toRat? with
  | some q =>
      rw [hGet]
      exact getElem_le_iff_lt_countP hSorted q hLength
  | none =>
      cases x.isNaN || x.negative with
      | false => simpa [size] using hi
      | true => simp

/-- The search over all thresholds counts those that are reached. -/
theorem search_eq_reached (h : Tabulated d) (x : Binary64) :
    search d.cells x 0 d.cells.size (Nat.le_refl _) = reached d x :=
  search_eq (fun _ hi => h.threshold_le_iff_lt_reached x hi) _ _ _
    (Nat.zero_le _) (reached_le_size d x)

theorem indexAt_eq (h : Tabulated d) (x : Binary64) :
    d.indexAt x = min (reached d x) (d.size - 1) := by
  unfold indexAt
  split
  · rename_i hOne
    have : d.size = 1 := hOne
    omega
  · rw [h.search_eq_reached]
    rfl

/-- The search over thresholds agrees with counting exactly. -/
theorem indexAt_eq_exactIndexAt (h : Tabulated d) (x : Binary64) :
    d.indexAt x = d.exactIndexAt x := by
  rw [h.indexAt_eq, reached, exactIndexAt]
  cases x.toRat? with
  | some q => rfl
  | none =>
      simp only
      split
      · exact Nat.zero_min _
      · omega

/-- Only draws from one on reach every cumulative probability. -/
theorem countP_lt_size (h : Tabulated d) {q : ℚ} (hq : q < 1) :
    d.cumulatives.countP (· ≤ q) < d.size := by
  rw [← length_cumulatives]
  refine List.countP_lt_length_iff.2 ⟨1, ?_, ?_⟩
  · obtain ⟨front, hfront⟩ := List.getLast?_eq_some_iff.1 h.last
    rw [hfront]
    simp
  · simpa using hq

/-- A draw on the end of a cell reaches the cells up to it, and no more. -/
theorem countP_boundary (h : Tabulated d) {i : Nat}
    (hi : i < d.cumulatives.length) :
    d.cumulatives.countP (· ≤ d.cumulatives[i]) = i + 1 := by
  have hSorted := (List.pairwise_cons.1 h.increasing).2
  have hReached := (getElem_le_iff_lt_countP hSorted d.cumulatives[i] hi).1
    (le_refl _)
  have hBound : d.cumulatives.countP (· ≤ d.cumulatives[i]) ≤
      d.cumulatives.length := List.countP_le_length
  by_contra hne
  have hNext : i + 1 < d.cumulatives.countP (· ≤ d.cumulatives[i]) := by omega
  have hLength : i + 1 < d.cumulatives.length := by omega
  have hLow :=
    (getElem_le_iff_lt_countP hSorted d.cumulatives[i] hLength).2 hNext
  have hHigh :=
    List.pairwise_iff_getElem.1 hSorted i (i + 1) hi hLength (by omega)
  linarith

end Tabulated

/-! ## Draws -/

/-- **Lookup is exact.** For every draw the search over thresholds finds the
number of cumulative probabilities that the exact value of the draw reaches,
up to the last index. Draws in `[0, 1)` never need that limit, and a draw on
the boundary of two cells goes to the upper one. -/
theorem indexAt_exact {d : Distribution α} (hd : Reachable d)
    (x : Binary64) :
    d.indexAt x = d.exactIndexAt x ∧
    (∀ q, x.toRat? = some q →
      d.indexAt x = min (d.cumulatives.countP (· ≤ q)) (d.size - 1)) ∧
    (x.isInfinite = true → x.negative = false → d.indexAt x = d.size - 1) ∧
    (x.isInfinite = true → x.negative = true → d.indexAt x = 0) ∧
    (x.isNaN = true → d.indexAt x = 0) ∧
    (d.size = 1 → d.indexAt x = 0) ∧
    d.indexAt x < d.size ∧
    (∀ q, x.toRat? = some q → q < 1 →
      d.cumulatives.countP (· ≤ q) ≤ d.size - 1 ∧
      search d.cells x 0 d.cells.size (Nat.le_refl _) ≤ d.size - 1) ∧
    (∀ i, (hi : i + 1 < d.cumulatives.length) →
      x.toRat? = some d.cumulatives[i] → d.indexAt x = i + 1) := by
  have h := hd.tabulated
  have hPos : 0 < d.size := d.cells_pos
  refine ⟨h.indexAt_eq_exactIndexAt x, ?_, ?_, ?_, ?_, ?_, ?_, ?_, ?_⟩
  · intro q hq
    rw [h.indexAt_eq, Tabulated.reached, hq]
  · intro hInf hSign
    have hNone := Binary64.toRat?_of_infinite hInf
    rw [h.indexAt_eq, Tabulated.reached, hNone.1]
    simp only [hNone.2, hSign, Bool.or_self, Bool.false_eq_true, if_false]
    omega
  · intro hInf hSign
    have hNone := Binary64.toRat?_of_infinite hInf
    rw [h.indexAt_eq, Tabulated.reached, hNone.1]
    simp [hSign]
  · intro hNaN
    rw [h.indexAt_eq, Tabulated.reached, Binary64.toRat?_of_isNaN hNaN]
    simp [hNaN]
  · intro hOne
    rw [h.indexAt_eq]
    omega
  · exact d.indexAt_lt x
  · intro q hq hLow
    have hCount := h.countP_lt_size hLow
    rw [h.search_eq_reached, Tabulated.reached, hq]
    simp only
    omega
  · intro i hi hx
    have hCount := h.countP_boundary (Nat.lt_of_succ_lt hi)
    rw [length_cumulatives] at hi
    rw [h.indexAt_eq, Tabulated.reached, hx]
    simp only [hCount]
    omega

/-- The draw `0.5` lies on the boundary of two halves. -/
theorem indexAt_exact_halves :
    ∃ d : Distribution String,
      ofEntries [⟨"low", .fixed (1 / 2)⟩, ⟨"high", .weighted 3⟩] = .ok d ∧
        d.indexAt ⟨0x3fe0000000000000⟩ = 1 := by
  have hBuilt : (match ofEntries
      [⟨"low", .fixed (1 / 2)⟩, ⟨"high", .weighted 3⟩] with
      | .ok d => decide (d.cumulatives = [1 / 2, 1])
      | .error _ => false) = true := by decide +kernel
  have hx : (Binary64.mk 0x3fe0000000000000).toRat? = some (1 / 2) := by
    decide +kernel
  split at hBuilt
  · rename_i d hd
    have hCumulatives := of_decide_eq_true hBuilt
    refine ⟨d, hd, ?_⟩
    have hExact := indexAt_exact (Reachable.ofEntries _ hd)
      ⟨0x3fe0000000000000⟩
    exact hExact.2.2.2.2.2.2.2.2 0 (by rw [hCumulatives]; decide)
      (by simp only [hCumulatives, hx, List.getElem_cons_zero])
  · cases hBuilt

end ValueMix.Distribution
