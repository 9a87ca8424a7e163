import Mathlib
import ValueMix.Proofs.BuiltIn
import ValueMix.Proofs.Equality
import ValueMix.Proofs.ShownPercentages

/-!
# The columns of a table

The table of a distribution rounds every marginal and every cumulative
probability on its own, and the text of the distribution rounds the marginals
together. No rounding is off by more than half a tenth, or by a whole tenth
where parts are rounded together. All of them yield whole tenths, so what is
shown of the same entry in different places differs by one tenth at most.

## Main results

* `roundHalfAway_mono` — rounding keeps the order.
* `abs_sub_le_one` — two roundings of the same number.
* `forall₂_steps_nearestTenths` — rounding differences, and the differences of
  what was rounded.
* `Mixture.table_consistent` — how the columns of a table and the percentages
  of the text agree.
-/

namespace ValueMix.Number

open ValueMix.Distribution

/-! ## Rounding to the nearest tenth -/

theorem roundHalfAway_mono : Monotone roundHalfAway := by
  intro p q hpq
  have hFloor : ∀ {x y : ℚ}, x ≤ y → (x + 1 / 2).floor ≤ (y + 1 / 2).floor := by
    intro x y hxy
    show ⌊x + 1 / 2⌋ ≤ ⌊y + 1 / 2⌋
    exact Int.floor_le_floor (by linarith)
  have hNonneg : ∀ {x : ℚ}, 0 ≤ x → 0 ≤ (x + 1 / 2).floor := by
    intro x hx
    show 0 ≤ ⌊x + 1 / 2⌋
    exact Int.floor_nonneg.2 (by linarith)
  unfold roundHalfAway
  by_cases hq : q < 0
  · have hp : p < 0 := by linarith
    rw [if_pos hp, if_pos hq, neg_le_neg_iff]
    exact hFloor (by linarith)
  · rw [if_neg hq]
    by_cases hp : p < 0
    · -- a negative number is not rounded above zero, the other one not below
      rw [if_pos hp]
      have hLow : 0 ≤ (-p + 1 / 2).floor := hNonneg (by linarith)
      have hHigh : 0 ≤ (q + 1 / 2).floor := hNonneg (by linarith)
      omega
    · rw [if_neg hp]
      exact hFloor hpq

/-- The tenths of a percent that are shown for a single probability. -/
def nearestTenths (p : ℚ) : ℤ := roundHalfAway (inTenths p)

theorem inTenths_mono : Monotone inTenths := by
  intro p q hpq
  unfold inTenths
  linarith

theorem inTenths_sub (p q : ℚ) :
    inTenths (p - q) = inTenths p - inTenths q := by
  unfold inTenths
  ring

theorem nearestTenths_mono : Monotone nearestTenths :=
  roundHalfAway_mono.comp inTenths_mono

@[simp] theorem nearestTenths_zero : nearestTenths 0 = 0 := by
  have hZero : inTenths 0 = ((0 : ℤ) : ℚ) := by norm_num [inTenths]
  rw [nearestTenths, hZero, roundHalfAway_intCast]

@[simp] theorem nearestTenths_one : nearestTenths 1 = 1000 := by
  have hThousand : inTenths 1 = ((1000 : ℤ) : ℚ) := by norm_num [inTenths]
  rw [nearestTenths, hThousand, roundHalfAway_intCast]

theorem percentText_eq (p : ℚ) : percentText p = tenthsText (nearestTenths p) :=
  rfl

theorem abs_nearestTenths_sub_le (p : ℚ) :
    |(nearestTenths p : ℚ) - inTenths p| ≤ 1 / 2 :=
  abs_roundHalfAway_sub_le _

/-- A single probability is shown at most half a tenth away. -/
theorem nearest_percent_near (p : ℚ) :
    |(nearestTenths p : ℚ) / 10 - 100 * p| ≤ 1 / 20 := by
  have hNear := abs_le.1 (abs_nearestTenths_sub_le p)
  rw [inTenths_eq] at hNear
  rw [abs_le]
  constructor <;> linarith

/-! ## Roundings of the same number -/

/-- Integers that are less than two apart are at most one apart. -/
theorem abs_sub_le_one {s t : ℤ} (h : |(s : ℚ) - t| < 2) : |s - t| ≤ 1 := by
  have hInt : |s - t| < 2 := by exact_mod_cast h
  omega

/-- Numbers of tenths at most one apart are percentages at most a tenth
apart. -/
theorem abs_percent_sub_le {s t : ℤ} (h : |s - t| ≤ 1) :
    |(s : ℚ) / 10 - (t : ℚ) / 10| ≤ 1 / 10 := by
  have hRat : |(s : ℚ) - t| ≤ 1 := by exact_mod_cast h
  rw [abs_le] at hRat ⊢
  constructor <;> linarith

/-- The difference of two rounded numbers, and their rounded difference. -/
theorem abs_nearestTenths_step (p q : ℚ) :
    |nearestTenths q - nearestTenths p - nearestTenths (q - p)| ≤ 1 := by
  have hp := abs_le.1 (abs_nearestTenths_sub_le p)
  have hq := abs_le.1 (abs_nearestTenths_sub_le q)
  have hStep := abs_le.1 (abs_nearestTenths_sub_le (q - p))
  rw [inTenths_sub] at hStep
  apply abs_sub_le_one
  push_cast
  rw [abs_lt]
  constructor <;> linarith

/-- A part rounded on its own, and rounded down or up. -/
theorem abs_nearestTenths_sub_shown {t : ℤ} {p : ℚ}
    (h : t = ⌊inTenths p⌋ ∨ t = ⌈inTenths p⌉) : |nearestTenths p - t| ≤ 1 := by
  have hNearest := abs_le.1 (abs_nearestTenths_sub_le p)
  have hShown := abs_lt.1 (abs_sub_lt_of_floor_or_ceil h)
  apply abs_sub_le_one
  rw [abs_lt]
  constructor <;> linarith

/-! ## Columns -/

/-- The percentages shown for probabilities that are rounded one by one. -/
def nearestPercents (ps : List ℚ) : List ℚ := percents (ps.map nearestTenths)

theorem percentsRead_percentText (ps : List ℚ) :
    percentsRead (ps.map percentText) = (nearestPercents ps).map some := by
  rw [percentsRead, nearestPercents, percents, List.map_map, List.map_map,
    List.map_map]
  exact List.map_congr_left fun p _ => readDecimal_tenthsText _

theorem nearestPercents_near (ps : List ℚ) :
    List.Forall₂ (fun (x : ℚ) p => |x - 100 * p| ≤ 1 / 20)
      (nearestPercents ps) ps := by
  rw [nearestPercents, percents, List.map_map, List.forall₂_map_left_iff,
    List.forall₂_same]
  exact fun p _ => nearest_percent_near p

/-- A column of increasing probabilities does not decrease. -/
theorem pairwise_nearestPercents {cs : List ℚ} (h : cs.Pairwise (· < ·)) :
    (nearestPercents cs).Pairwise (· ≤ ·) := by
  rw [nearestPercents, percents, List.map_map, List.pairwise_map]
  refine h.imp fun {p q} hpq => ?_
  have hTenths : (nearestTenths p : ℚ) ≤ nearestTenths q := by
    exact_mod_cast nearestTenths_mono hpq.le
  show (nearestTenths p : ℚ) / 10 ≤ (nearestTenths q : ℚ) / 10
  linarith

/-- The differences in a rounded column, and the rounded differences. -/
theorem forall₂_steps_nearestTenths (below : ℚ) (cs : List ℚ) :
    List.Forall₂ (fun (x y : ℚ) => |x - y| ≤ 1 / 10)
      (steps ((nearestTenths below : ℚ) / 10) (nearestPercents cs))
      (nearestPercents (steps below cs)) := by
  induction cs generalizing below with
  | nil => exact .nil
  | cons c cs ih =>
      have hStep := abs_percent_sub_le (abs_nearestTenths_step below c)
      push_cast at hStep
      rw [sub_div] at hStep
      exact .cons hStep (ih c)

/-- Parts rounded one by one, and rounded together. -/
theorem forall₂_nearestPercents_apportion {ps : List ℚ} (h : ∀ p ∈ ps, 0 ≤ p) :
    List.Forall₂ (fun (x y : ℚ) => |x - y| ≤ 1 / 10)
      (nearestPercents ps) (percents (apportion ps)) := by
  rw [nearestPercents, percents, percents, List.map_map,
    List.forall₂_map_left_iff, List.forall₂_map_right_iff]
  exact (floor_or_ceil_apportion h).flip.imp fun p t hShown =>
    abs_percent_sub_le (abs_nearestTenths_sub_shown hShown)

end ValueMix.Number

namespace ValueMix

open ValueMix.Number

namespace Distribution

variable {α : Type} [ToString α] (d : Distribution α)

/-! ## Tables -/

omit [ToString α] in
private theorem length_entries_eq :
    d.entries.length = d.cumulatives.length := by
  rw [entries, List.length_zip, length_values, length_marginals,
    length_cumulatives, Nat.min_self]

theorem map_value_table :
    d.table.map (·.value) = d.values.map toString := by
  have hFst : (d.entries.zip d.cumulatives).map Prod.fst = d.entries :=
    List.map_fst_zip d.length_entries_eq.le
  rw [← d.map_fst_entries, ← hFst, table]
  simp only [List.map_map]
  rfl

theorem map_marginal_table :
    d.table.map (·.marginal) = d.marginals.map percentText := by
  have hFst : (d.entries.zip d.cumulatives).map Prod.fst = d.entries :=
    List.map_fst_zip d.length_entries_eq.le
  rw [← d.map_snd_entries, ← hFst, table]
  simp only [List.map_map]
  rfl

theorem map_cumulative_table :
    d.table.map (·.cumulative) = d.cumulatives.map percentText := by
  have hSnd : (d.entries.zip d.cumulatives).map Prod.snd = d.cumulatives :=
    List.map_snd_zip d.length_entries_eq.ge
  conv_rhs => rw [← hSnd]
  rw [table]
  simp only [List.map_map]
  rfl

/-- The last cell of the cumulative column. -/
theorem Tabulated.last_cell {d : Distribution α} (hd : d.Tabulated) :
    (d.table.map (·.cumulative)).getLast? = some "100.0" := by
  rw [map_cumulative_table, List.getLast?_map, hd.last, Option.map_some,
    percentText_eq, nearestTenths_one]
  decide

end Distribution

namespace Mixture

open ValueMix.Distribution

/-- The distribution of a mixture, over the values of its kind. -/
def distribution : (m : Mixture) → Distribution m.kind.Value
  | integer d => d
  | size d => d
  | word d => d

theorem table_eq (m : Mixture) : m.table = m.distribution.table := by
  cases m <;> rfl

theorem text_eq (m : Mixture) : m.text = m.distribution.text := by
  cases m <;> rfl

/-- **The columns of a table agree.** The cells of the table of a distribution
that can be built, and the percentages in its text, are numbers of whole
tenths. Every cell is at most half a tenth away from its exact percentage.
The cumulative column does not decrease and ends at `100.0`. Its steps differ
from the marginal column by a tenth at most, and so do the percentages in the
text. -/
theorem table_consistent {m : Mixture} (hm : m.distribution.Reachable) :
    ∃ (marginal cumulative shown : List ℤ) (texts : List String),
      m.table.map (·.value) = m.distribution.values.map toString ∧
      percentsRead (m.table.map (·.marginal)) = (percents marginal).map some ∧
      percentsRead (m.table.map (·.cumulative)) =
        (percents cumulative).map some ∧
      m.text = "[" ++ ", ".intercalate
        (List.zipWith entryText texts m.distribution.values) ++ "]" ∧
      percentsRead texts = (percents shown).map some ∧
      List.Forall₂ (fun (x : ℚ) p => |x - 100 * p| ≤ 1 / 20)
        (percents marginal) m.distribution.marginals ∧
      List.Forall₂ (fun (x : ℚ) p => |x - 100 * p| ≤ 1 / 20)
        (percents cumulative) m.distribution.cumulatives ∧
      (percents cumulative).Pairwise (· ≤ ·) ∧
      (m.table.map (·.cumulative)).getLast? = some "100.0" ∧
      List.Forall₂ (fun (x y : ℚ) => |x - y| ≤ 1 / 10)
        (steps 0 (percents cumulative)) (percents marginal) ∧
      List.Forall₂ (fun (x y : ℚ) => |x - y| ≤ 1 / 10)
        (percents marginal) (percents shown) := by
  have hTable := hm.tabulated
  have hNonneg : ∀ p ∈ m.distribution.marginals, 0 ≤ p :=
    fun p hp => (hTable.marginals_pos p hp).le
  rw [table_eq, text_eq]
  generalize m.distribution = d at hTable hNonneg ⊢
  refine ⟨d.marginals.map nearestTenths, d.cumulatives.map nearestTenths,
    apportion d.marginals, apportionedTexts d.marginals, d.map_value_table,
    ?_, ?_, rfl, percentsRead_apportionedTexts _, nearestPercents_near _,
    nearestPercents_near _, ?_, hTable.last_cell, ?_,
    forall₂_nearestPercents_apportion hNonneg⟩
  · rw [map_marginal_table]
    exact percentsRead_percentText _
  · rw [map_cumulative_table]
    exact percentsRead_percentText _
  · exact pairwise_nearestPercents (List.pairwise_cons.1 hTable.increasing).2
  · have hSteps := forall₂_steps_nearestTenths 0 d.cumulatives
    rwa [nearestTenths_zero, Int.cast_zero, zero_div] at hSteps

/-- A third, two ninths and four ninths. The second step of the cumulative
column is `22.3`, beside a marginal cell of `22.2`. -/
theorem table_consistent_ninths :
    ∃ d : Distribution UInt64,
      ofEntries [⟨1, .fixed (1 / 3)⟩, ⟨2, .weighted 1⟩, ⟨3, .weighted 2⟩] =
        .ok d ∧
      (integer d).distribution.Reachable ∧
      (integer d).table = [⟨"1", "33.3", "33.3"⟩, ⟨"2", "22.2", "55.6"⟩,
        ⟨"3", "44.4", "100.0"⟩] ∧
      ∃ marginal cumulative : List ℤ,
        percentsRead ((integer d).table.map (·.marginal)) =
          (percents marginal).map some ∧
        percentsRead ((integer d).table.map (·.cumulative)) =
          (percents cumulative).map some ∧
        List.Forall₂ (fun (x y : ℚ) => |x - y| ≤ 1 / 10)
          (steps 0 (percents cumulative)) (percents marginal) := by
  have hShown : ((ofEntries [⟨1, .fixed (1 / 3)⟩, ⟨2, .weighted 1⟩,
      ⟨3, .weighted 2⟩] : Except Error (Distribution UInt64)).toOption.map
        fun d => d.table) =
      some [⟨"1", "33.3", "33.3"⟩, ⟨"2", "22.2", "55.6"⟩,
        ⟨"3", "44.4", "100.0"⟩] := by decide +kernel
  obtain ⟨d, hd, hTable⟩ := exists_ok_of_toOption hShown
  have hReachable : (integer d).distribution.Reachable := .ofEntries _ hd
  obtain ⟨marginal, cumulative, -, -, -, hMarginal, hCumulative, -, -, -, -, -,
    -, hSteps, -⟩ := table_consistent hReachable
  exact ⟨d, hd, hReachable, hTable, marginal, cumulative, hMarginal,
    hCumulative, hSteps⟩

end Mixture

end ValueMix
