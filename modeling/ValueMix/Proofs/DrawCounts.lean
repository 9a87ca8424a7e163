import Mathlib
import ValueMix.Proofs.Lookup
import ValueMix.Proofs.Rounding
import ValueMix.Sampling.Draw

/-!
# How many draws select an entry

A uniform draw is one of `2 ^ 53` fractions with equal distances, and every one
of them is an exact binary64 number. An entry is selected by the fractions that
lie in its cell, so their number is a difference of two rounded boundaries, and
the share of the draws that select it differs from its probability by less than
one step of the grid.

## Main results

* `Tabulated.indexAt_eq_iff` — a draw in `[0, 1)` selects the entry whose cell
  it lies in.
* `Tabulated.drawsTo_eq_Ico` — the draws that select an entry are consecutive.
* `drawCounts_exact` — how many draws select each entry of a distribution that
  can be built.
-/

namespace ValueMix.Distribution

variable {α : Type}

/-! ## Boundaries -/

/-- The boundaries of the cells from zero on. The cell of an index begins at
the boundary of this index and ends at the next one. -/
def boundary (d : Distribution α) (i : Nat) : ℚ := (0 :: d.cumulatives).getD i 1

@[simp] theorem boundary_zero (d : Distribution α) : d.boundary 0 = 0 := rfl

theorem boundary_succ (d : Distribution α) {i : Nat}
    (hi : i < d.cumulatives.length) :
    d.boundary (i + 1) = d.cumulatives[i] := by
  rw [boundary, List.getD_cons_succ, List.getD_eq_getElem _ _ hi]

theorem getElem_steps {below : ℚ} {cs : List ℚ} {i : Nat}
    (hi : i < (steps below cs).length) :
    (steps below cs)[i] =
      (below :: cs).getD (i + 1) 1 - (below :: cs).getD i 1 := by
  induction cs generalizing below i with
  | nil => exact absurd hi (Nat.not_lt_zero i)
  | cons c rest ih =>
      cases i with
      | zero => rfl
      | succ i =>
          simp only [steps, List.getElem_cons_succ]
          exact ih _

/-- The probability of an entry is the length of its cell. -/
theorem getElem_marginals (d : Distribution α) {i : Nat}
    (hi : i < d.marginals.length) :
    d.marginals[i] = d.boundary (i + 1) - d.boundary i :=
  getElem_steps hi

namespace Tabulated

variable {d : Distribution α}

theorem boundary_mem_Icc (h : Tabulated d) {i : Nat} (hi : i ≤ d.size) :
    d.boundary i ∈ Set.Icc 0 1 := by
  cases i with
  | zero => exact Set.left_mem_Icc.2 zero_le_one
  | succ i =>
      have hLength : i < d.cumulatives.length := by
        rw [length_cumulatives]
        omega
      have hMem : d.cumulatives[i] ∈ d.cumulatives := List.getElem_mem hLength
      rw [d.boundary_succ hLength]
      exact ⟨(h.cumulative_pos hMem).le, h.cumulative_le_one hMem⟩

/-- No cell is empty. -/
theorem boundary_lt_succ (h : Tabulated d) {i : Nat} (hi : i < d.size) :
    d.boundary i < d.boundary (i + 1) := by
  have hMarginal : i < d.marginals.length := by
    rw [length_marginals]
    exact hi
  have hPos : 0 < d.marginals[i] :=
    h.marginals_pos _ (List.getElem_mem hMarginal)
  rw [d.getElem_marginals hMarginal] at hPos
  exact sub_pos.1 hPos

/-- A number from zero on is past the boundaries of as many cells as there are
cumulative probabilities up to it. -/
theorem boundary_le_iff (h : Tabulated d) {q : ℚ} (hq : 0 ≤ q) {i : Nat}
    (hi : i ≤ d.size) :
    d.boundary i ≤ q ↔ i ≤ d.cumulatives.countP (· ≤ q) := by
  have hLength : i < (0 :: d.cumulatives).length := by
    rw [List.length_cons, length_cumulatives]
    omega
  rw [boundary, List.getD_eq_getElem _ _ hLength,
    getElem_le_iff_lt_countP h.increasing,
    List.countP_cons_of_pos (by simpa using hq), Nat.lt_succ_iff]

/-- A draw in `[0, 1)` selects the entry whose cell it lies in. -/
theorem indexAt_eq_iff (h : Tabulated d) {x : Binary64} {q : ℚ}
    (hx : x.toRat? = some q) (hLow : 0 ≤ q) (hHigh : q < 1) {i : Nat}
    (hi : i < d.size) :
    d.indexAt x = i ↔ d.boundary i ≤ q ∧ q < d.boundary (i + 1) := by
  have hCount := h.countP_lt_size hHigh
  have hIndex : d.indexAt x = d.cumulatives.countP (· ≤ q) := by
    rw [h.indexAt_eq, reached, hx]
    exact Nat.min_eq_left (Nat.le_sub_one_of_lt hCount)
  rw [hIndex, ← not_le, h.boundary_le_iff hLow hi.le, h.boundary_le_iff hLow hi]
  omega

end Tabulated

/-! ## Counting draws -/

/-- The draws that select an entry, each as the number of steps of the grid. -/
def drawsTo (d : Distribution α) (i : Nat) : Finset Nat :=
  {k ∈ Finset.range (2 ^ 53) | d.indexAt (Binary64.gridDraw k) = i}

/-- Every draw selects one entry. -/
theorem sum_card_drawsTo (d : Distribution α) :
    ∑ i ∈ Finset.range d.size, (d.drawsTo i).card = 2 ^ 53 := by
  have hIndex : Set.MapsTo (fun k => d.indexAt (Binary64.gridDraw k))
      (Finset.range (2 ^ 53)) (Finset.range d.size) :=
    fun k _ => Finset.mem_coe.2 (Finset.mem_range.2 (d.indexAt_lt _))
  calc ∑ i ∈ Finset.range d.size, (d.drawsTo i).card
      = (Finset.range (2 ^ 53)).card :=
        (Finset.card_eq_sum_card_fiberwise hIndex).symm
    _ = 2 ^ 53 := Finset.card_range _

namespace Tabulated

variable {d : Distribution α}

/-- The draws that select an entry are consecutive: from the first one in its
cell to the last one below the next boundary. -/
theorem drawsTo_eq_Ico (h : Tabulated d) {i : Nat} (hi : i < d.size) :
    d.drawsTo i =
      Finset.Ico ⌈2 ^ 53 * d.boundary i⌉₊ ⌈2 ^ 53 * d.boundary (i + 1)⌉₊ := by
  have hGrid : (0 : ℚ) < 2 ^ 53 := by positivity
  ext k
  rw [drawsTo, Finset.mem_filter, Finset.mem_range, Finset.mem_Ico, Nat.ceil_le,
    Nat.lt_ceil, ← le_div_iff₀' hGrid, ← div_lt_iff₀' hGrid]
  have hSelected : k < 2 ^ 53 → (d.indexAt (Binary64.gridDraw k) = i ↔
      d.boundary i ≤ k / 2 ^ 53 ∧ (k : ℚ) / 2 ^ 53 < d.boundary (i + 1)) := by
    intro hk
    refine h.indexAt_eq_iff (Binary64.toRat?_gridDraw hk) (by positivity) ?_ hi
    rw [div_lt_one hGrid]
    exact_mod_cast hk
  constructor
  · rintro ⟨hk, hIndex⟩
    exact (hSelected hk).1 hIndex
  · rintro ⟨hLow, hHigh⟩
    have hk : k < 2 ^ 53 := by
      have hOne := hHigh.trans_le (h.boundary_mem_Icc hi).2
      rw [div_lt_one hGrid] at hOne
      exact_mod_cast hOne
    exact ⟨hk, (hSelected hk).2 ⟨hLow, hHigh⟩⟩

/-- The number of draws that select an entry. -/
theorem card_drawsTo (h : Tabulated d) {i : Nat} (hi : i < d.size) :
    ((d.drawsTo i).card : Int) =
      ⌈2 ^ 53 * d.boundary (i + 1)⌉ - ⌈2 ^ 53 * d.boundary i⌉ := by
  have hLow : 0 ≤ 2 ^ 53 * d.boundary i :=
    mul_nonneg (by positivity) (h.boundary_mem_Icc hi.le).1
  have hHigh : 0 ≤ 2 ^ 53 * d.boundary (i + 1) :=
    mul_nonneg (by positivity) (h.boundary_mem_Icc hi).1
  have hCell : 2 ^ 53 * d.boundary i ≤ 2 ^ 53 * d.boundary (i + 1) :=
    mul_le_mul_of_nonneg_left (h.boundary_lt_succ hi).le (by positivity)
  rw [h.drawsTo_eq_Ico hi, Nat.card_Ico, Nat.cast_sub (Nat.ceil_mono hCell),
    Int.natCast_ceil_eq_ceil hLow, Int.natCast_ceil_eq_ceil hHigh]

/-- The share of the draws that select an entry differs from its probability by
less than one step of the grid. -/
theorem abs_share_sub_marginal_lt (h : Tabulated d) {i : Nat}
    (hi : i < d.marginals.length) :
    |((d.drawsTo i).card : ℚ) / 2 ^ 53 - d.marginals[i]| < 1 / 2 ^ 53 := by
  have hGrid : (0 : ℚ) < 2 ^ 53 := by positivity
  have hCard : ((d.drawsTo i).card : ℚ) =
      ⌈2 ^ 53 * d.boundary (i + 1)⌉ - ⌈2 ^ 53 * d.boundary i⌉ := by
    rw [length_marginals] at hi
    exact_mod_cast h.card_drawsTo hi
  have hScaled : ((d.drawsTo i).card : ℚ) / 2 ^ 53 - d.marginals[i] =
      ((d.drawsTo i).card -
        (2 ^ 53 * d.boundary (i + 1) - 2 ^ 53 * d.boundary i)) / 2 ^ 53 := by
    rw [d.getElem_marginals hi, sub_div, ← mul_sub,
      mul_div_cancel_left₀ _ hGrid.ne']
  rw [hScaled, abs_div, abs_of_pos hGrid, div_lt_div_iff_of_pos_right hGrid,
    hCard, abs_lt]
  -- Rounding up moves either boundary by less than one step.
  have hLow := Int.le_ceil (2 ^ 53 * d.boundary i)
  have hLowNear := Int.ceil_lt_add_one (2 ^ 53 * d.boundary i)
  have hHigh := Int.le_ceil (2 ^ 53 * d.boundary (i + 1))
  have hHighNear := Int.ceil_lt_add_one (2 ^ 53 * d.boundary (i + 1))
  constructor
  · linarith
  · linarith

/-- An entry that is at least as probable as a single draw is selected. -/
theorem exists_word_of_le_marginal (h : Tabulated d) {i : Nat}
    (hi : i < d.marginals.length) (hLarge : 1 / 2 ^ 53 ≤ d.marginals[i]) :
    ∃ w : UInt64, d.indexAt (Binary64.ofDraw w) = i := by
  have hNear := (abs_lt.1 (h.abs_share_sub_marginal_lt hi)).1
  have hShare : (0 : ℚ) < (d.drawsTo i).card / 2 ^ 53 := by linarith
  have hCard : 0 < (d.drawsTo i).card := by
    refine Nat.pos_of_ne_zero fun hNone => ?_
    rw [hNone, Nat.cast_zero, zero_div] at hShare
    exact lt_irrefl _ hShare
  obtain ⟨k, hk⟩ := Finset.card_pos.1 hCard
  rw [drawsTo, Finset.mem_filter, Finset.mem_range] at hk
  obtain ⟨w, hw⟩ := Binary64.exists_word hk.1
  refine ⟨w, ?_⟩
  rw [Binary64.ofDraw_eq, hw]
  exact hk.2

end Tabulated

theorem nextIndex_of_two_le {σ : Type} [WordSource σ] {d : Distribution α}
    (hn : 2 ≤ d.size) (source : σ) :
    d.nextIndex source =
      (d.indexAt (Binary64.gridDraw ((WordSource.next source).1 >>> 11).toNat),
        (WordSource.next source).2) := by
  have hSize : ¬ d.cells.size = 1 := by
    intro hOne
    rw [size, hOne] at hn
    omega
  rw [nextIndex, if_neg hSize]
  rfl

/-- **How many draws select each entry.** A draw is the fraction that the upper
53 bits of one word stand for, and every fraction is drawn by equally many
words. The fractions that select an entry number the difference of the
boundaries of its cell, each rounded up to the grid; together they are all
fractions. So the share of an entry is off by less than one step of the grid,
and every entry that is at least as probable as a single draw is selected. -/
theorem drawCounts_exact {d : Distribution α} (hd : Reachable d)
    (hn : 2 ≤ d.size) :
    (∀ (σ : Type) [WordSource σ] (source : σ),
      d.nextIndex source =
        (d.indexAt
            (Binary64.gridDraw ((WordSource.next source).1 >>> 11).toNat),
          (WordSource.next source).2)) ∧
    (∀ w : UInt64, (w >>> 11).toNat < 2 ^ 53) ∧
    (∀ (w : UInt64) (k : Nat), (w >>> 11).toNat = k ↔
      w.toNat ∈ Finset.Ico (k * 2 ^ 11) (k * 2 ^ 11 + 2 ^ 11)) ∧
    (∀ k < 2 ^ 53, (Binary64.gridDraw k).toRat? = some ((k : ℚ) / 2 ^ 53)) ∧
    (∀ i < d.size, ((d.drawsTo i).card : Int) =
      ⌈2 ^ 53 * d.boundary (i + 1)⌉ - ⌈2 ^ 53 * d.boundary i⌉) ∧
    ∑ i ∈ Finset.range d.size, (d.drawsTo i).card = 2 ^ 53 ∧
    (∀ i, (hi : i < d.marginals.length) →
      |((d.drawsTo i).card : ℚ) / 2 ^ 53 - d.marginals[i]| < 1 / 2 ^ 53 ∧
      (1 / 2 ^ 53 ≤ d.marginals[i] →
        ∃ w : UInt64, d.indexAt (Binary64.ofDraw w) = i)) := by
  have h := hd.tabulated
  refine ⟨?_, Binary64.toNat_shiftRight_eleven_lt, ?_, ?_, ?_, ?_, ?_⟩
  · intro σ _ source
    exact nextIndex_of_two_le hn source
  · intro w k
    exact Binary64.toNat_shiftRight_eleven_eq_iff w k
  · intro k hk
    exact Binary64.toRat?_gridDraw hk
  · intro i hi
    exact h.card_drawsTo hi
  · exact d.sum_card_drawsTo
  · intro i hi
    exact ⟨h.abs_share_sub_marginal_lt hi, h.exists_word_of_le_marginal hi⟩

/-- A third of the grid is no whole number of draws: the first entry is selected
by the third rounded up. -/
theorem drawCounts_exact_third :
    ∃ d : Distribution String,
      ofEntries [⟨"low", .fixed (1 / 3)⟩, ⟨"high", .weighted 1⟩] = .ok d ∧
        2 ≤ d.size ∧ ((d.drawsTo 0).card : Int) = 3002399751580331 := by
  have hBuilt : (match ofEntries
      [⟨"low", .fixed (1 / 3)⟩, ⟨"high", .weighted 1⟩] with
      | .ok d => decide (d.cumulatives = [1 / 3, 1])
      | .error _ => false) = true := by decide +kernel
  split at hBuilt
  · rename_i d hd
    have hCumulatives : d.cumulatives = [1 / 3, 1] := of_decide_eq_true hBuilt
    have hSize : d.size = 2 := by
      rw [← length_cumulatives, hCumulatives]
      rfl
    have hExact := drawCounts_exact (Reachable.ofEntries _ hd) hSize.ge
    refine ⟨d, hd, hSize.ge, ?_⟩
    rw [hExact.2.2.2.2.1 0 (by omega), boundary_zero, zero_add,
      boundary_succ d (by rw [hCumulatives]; decide)]
    simp only [hCumulatives, List.getElem_cons_zero]
    norm_num
  · cases hBuilt

end ValueMix.Distribution
