import Mathlib
import ValueMix.Proofs.Equality
import ValueMix.Proofs.RemainderOrder

/-!
# The percentages shown are as close as they can be

Rounding by largest remainders has the smallest total error of all ways to
write a list of parts in whole tenths with the same sum. A price for a tenth
shows this: with a price between the costs of the extra tenths that are given
and of those that are not, no part alone has a reason to be shown otherwise, and
for lists with the same sum the price cancels.

## Main results

* `exists_cutoff` — a fraction that separates what is rounded up.
* `totalError_apportion_le` — no tenths with the same sum are closer.
* `text_optimal` — the text of a distribution that can be built.
-/

namespace ValueMix.Number

/-! ## The price of a tenth -/

/-- The positions of the parts that are rounded down. -/
def roundedDown (parts : List ℚ) : Finset (Fin parts.length) :=
  Finset.univ.filter fun i => i.1 ∉ roundedUp parts

theorem mem_roundedDown {parts : List ℚ} {i : Fin parts.length} :
    i ∈ roundedDown parts ↔ i.1 ∉ roundedUp parts := by
  simp [roundedDown]

/-- A fraction separates the parts rounded up from the others: the largest one
that is rounded down. -/
theorem exists_cutoff {parts : List ℚ} (h : ∀ p ∈ parts, 0 ≤ p) :
    ∃ c : ℚ, 0 ≤ c ∧ c ≤ 1 ∧ ∀ i, (hi : i < parts.length) →
      (i ∈ roundedUp parts → c ≤ Int.fract (inTenths parts[i])) ∧
      (i ∉ roundedUp parts → Int.fract (inTenths parts[i]) ≤ c) := by
  rcases (roundedDown parts).eq_empty_or_nonempty with hNone | hSome
  · refine ⟨0, le_refl 0, zero_le_one,
      fun i hi => ⟨fun _ => ?_, fun hDown => ?_⟩⟩
    · exact Int.fract_nonneg _
    · have hMem : (⟨i, hi⟩ : Fin parts.length) ∈ roundedDown parts :=
        mem_roundedDown.2 hDown
      rw [hNone] at hMem
      exact absurd hMem (Finset.notMem_empty _)
  · obtain ⟨j, hj, hMax⟩ := (roundedDown parts).exists_max_image
      (fun i => Int.fract (inTenths parts[i])) hSome
    refine ⟨Int.fract (inTenths parts[j]), Int.fract_nonneg _,
      (Int.fract_lt_one _).le, fun i hi => ⟨fun hUp => ?_, fun hDown => ?_⟩⟩
    · rcases fract_order h hi j.2 hUp (mem_roundedDown.1 hj) with
        hLess | ⟨hTie, -⟩
      · exact hLess.le
      · exact hTie.ge
    · exact hMax ⟨i, hi⟩ (mem_roundedDown.2 hDown)

/-- What rounding down and rounding up cost. -/
theorem abs_floor_sub (x : ℚ) : |(⌊x⌋ : ℚ) - x| = Int.fract x := by
  rw [abs_sub_comm, Int.self_sub_floor, Int.abs_fract]

theorem abs_floor_add_one_sub (x : ℚ) :
    |(⌊x⌋ : ℚ) + 1 - x| = 1 - Int.fract x := by
  have hHigh := Int.fract_lt_one x
  rw [show (⌊x⌋ : ℚ) + 1 - x = 1 - (x - ⌊x⌋) by ring, Int.self_sub_floor]
  exact abs_of_pos (by linarith)

/-- At the price that a cutoff sets, no other number of tenths is better than
rounding by the cutoff. -/
theorem error_add_price_le {x c : ℚ} {s : ℤ} (h0 : 0 ≤ c) (h1 : c ≤ 1)
    (h : s = ⌊x⌋ ∧ Int.fract x ≤ c ∨ s = ⌊x⌋ + 1 ∧ c ≤ Int.fract x) (t : ℤ) :
    |(s : ℚ) - x| + (1 - 2 * c) * (t - s) ≤ |(t : ℚ) - x| := by
  have hSplit := Int.floor_add_fract x
  have hBelow := neg_le_abs ((t : ℚ) - x)
  have hAbove := le_abs_self ((t : ℚ) - x)
  -- the number of tenths above the floor is at most zero or at least one
  rcases le_or_gt t ⌊x⌋ with hDown | hUp
  · have hFar : (t : ℚ) - ⌊x⌋ ≤ 0 := by
      rw [sub_nonpos]
      exact_mod_cast hDown
    have hPrice := mul_nonneg_of_nonpos_of_nonpos hFar (sub_nonpos.2 h1)
    rcases h with ⟨rfl, hSmall⟩ | ⟨rfl, hLarge⟩
    · rw [abs_floor_sub]
      linarith
    · push_cast
      rw [abs_floor_add_one_sub]
      linarith
  · have hFar : 0 ≤ (t : ℚ) - ⌊x⌋ - 1 := by
      have hNext : ((⌊x⌋ + 1 : ℤ) : ℚ) ≤ t := by exact_mod_cast hUp
      push_cast at hNext
      linarith
    have hPrice := mul_nonneg h0 hFar
    rcases h with ⟨rfl, hSmall⟩ | ⟨rfl, hLarge⟩
    · rw [abs_floor_sub]
      linarith
    · push_cast
      rw [abs_floor_add_one_sub]
      linarith

/-! ## The total error -/

/-- How far some tenths of a percent are from a list of parts in total, in
tenths. -/
def totalError (ts : List ℤ) (ps : List ℚ) : ℚ :=
  (List.zipWith (fun (t : ℤ) p => |(t : ℚ) - inTenths p|) ts ps).sum

/-- What holds at a price for every part holds for the whole list. -/
theorem totalError_add_price_le {k : ℚ} {ss : List ℤ} {ps : List ℚ}
    (h : List.Forall₂ (fun (s : ℤ) p => ∀ t : ℤ,
      |(s : ℚ) - inTenths p| + k * (t - s) ≤ |(t : ℚ) - inTenths p|) ss ps)
    {ts : List ℤ} (hLength : ts.length = ps.length) :
    totalError ss ps + k * (ts.sum - ss.sum) ≤ totalError ts ps := by
  induction h generalizing ts with
  | nil =>
      rw [List.length_eq_zero_iff.1 hLength]
      simp [totalError]
  | cons hPart hRest ih =>
      cases ts with
      | nil => cases hLength
      | cons t ts =>
          have hHead := hPart t
          have hTail := ih (Nat.succ.inj hLength)
          simp only [totalError, List.zipWith_cons_cons, List.sum_cons,
            Int.cast_add] at hTail ⊢
          linarith

/-- No tenths with the same sum are closer to parts that are not negative than
the tenths shown. -/
theorem totalError_apportion_le {parts : List ℚ} (h : ∀ p ∈ parts, 0 ≤ p)
    {ts : List ℤ} (hLength : ts.length = parts.length)
    (hSum : ts.sum = (apportion parts).sum) :
    totalError (apportion parts) parts ≤ totalError ts parts := by
  obtain ⟨c, h0, h1, hCut⟩ := exists_cutoff h
  have hParts : List.Forall₂ (fun (s : ℤ) p => ∀ t : ℤ,
      |(s : ℚ) - inTenths p| + (1 - 2 * c) * (t - s) ≤ |(t : ℚ) - inTenths p|)
      (apportion parts) parts := by
    rw [List.forall₂_iff_get]
    refine ⟨length_apportion parts, fun i hi' hi => error_add_price_le h0 h1 ?_⟩
    have hShown := getElem_apportion hi hi'
    by_cases hUp : i ∈ roundedUp parts
    · rw [if_pos hUp] at hShown
      exact Or.inr ⟨hShown, (hCut i hi).1 hUp⟩
    · rw [if_neg hUp, add_zero] at hShown
      exact Or.inl ⟨hShown, (hCut i hi).2 hUp⟩
  have hTotal := totalError_add_price_le hParts hLength
  rw [hSum, sub_self, mul_zero, add_zero] at hTotal
  exact hTotal

end ValueMix.Number

namespace ValueMix.Distribution

open ValueMix.Number

variable {α : Type} [ToString α]

/-- The text of a distribution, from the tenths shown. -/
theorem text_eq (d : Distribution α) :
    d.text = "[" ++ ", ".intercalate (List.zipWith
      (fun t v => tenthsText t ++ "%: " ++ toString v)
      (apportion d.marginals) d.values) ++ "]" := by
  rw [text, apportionedTexts, List.zipWith_map_left]
  rfl

/-- **The percentages shown are as close as they can be.** The text of a
distribution that can be built shows one number of tenths for every entry, a
thousand in total, and no other numbers of tenths with this total have a smaller
total distance from the exact marginals. -/
theorem text_optimal {d : Distribution α} (hd : Reachable d) :
    let shown := apportion d.marginals
    d.text = "[" ++ ", ".intercalate (List.zipWith
      (fun t v => tenthsText t ++ "%: " ++ toString v) shown d.values) ++ "]" ∧
    shown.length = d.size ∧
    shown.sum = 1000 ∧
    ∀ ts : List ℤ, ts.length = d.size → ts.sum = 1000 →
      totalError shown d.marginals ≤ totalError ts d.marginals := by
  intro shown
  have hTable := hd.tabulated
  have hTotal : shown.sum = 1000 := hTable.sum_tenths
  have hNonneg : ∀ p ∈ d.marginals, 0 ≤ p :=
    fun p hp => (hTable.marginals_pos p hp).le
  refine ⟨d.text_eq, ?_, hTotal, fun ts hLength hSum => ?_⟩
  · rw [length_apportion, length_marginals]
  · apply totalError_apportion_le hNonneg
    · rw [hLength, length_marginals]
    · exact hSum.trans hTotal.symm

/-- Three thirds are shown with a total error of at most four thirds of a
tenth, which `33.4`, `33.3` and `33.3` have. -/
theorem text_optimal_thirds :
    ∃ d : Distribution String,
      ofEntries [⟨"a", .weighted 1⟩, ⟨"b", .weighted 1⟩, ⟨"c", .weighted 1⟩] =
        .ok d ∧
      (apportion d.marginals).sum = 1000 ∧
      totalError (apportion d.marginals) d.marginals ≤ 4 / 3 := by
  have hThirds : (ofEntries [⟨"a", .weighted 1⟩, ⟨"b", .weighted 1⟩,
      ⟨"c", .weighted 1⟩]).toOption.map Distribution.marginals =
      some [1 / 3, 1 / 3, 1 / 3] := by decide +kernel
  obtain ⟨d, hd, hMarginals⟩ := exists_ok_of_toOption hThirds
  have hSize : d.size = 3 := by
    rw [← length_marginals, hMarginals]
    rfl
  obtain ⟨-, -, hTotal, hBest⟩ := text_optimal (Reachable.ofEntries _ hd)
  have hError : totalError [334, 333, 333] d.marginals = 4 / 3 := by
    rw [hMarginals]
    decide +kernel
  exact ⟨d, hd, hTotal, hError ▸ hBest [334, 333, 333] hSize.symm (by decide)⟩

end ValueMix.Distribution
