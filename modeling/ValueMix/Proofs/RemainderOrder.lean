import Mathlib
import ValueMix.Proofs.ShownPercentages

/-!
# Which parts are rounded up

The ranking of remainders is a strict order of positions: a larger remainder
comes first, and of equal remainders the earlier one. The parts rounded up are
the first of this ranking, so no part passes over one that it is ranked behind,
and the tenths shown are in the order of the parts.

## Main results

* `pairwise_ranksBefore` — the ranking, with its ties decided.
* `ranksBefore_of_roundedUp` — what is rounded up is ranked before what is not.
* `apportion_order` — the order of the tenths shown.
-/

namespace ValueMix.Number

/-! ## The ranking -/

/-- Whether a remainder with its position is ranked before another one. -/
def RanksBefore (a b : ℚ × ℕ) : Prop := b.1 < a.1 ∨ a.1 = b.1 ∧ a.2 < b.2

theorem pairwise_zipIdx (rs : List ℚ) :
    rs.zipIdx.Pairwise fun a b => a.2 < b.2 := by
  rw [← List.pairwise_map (f := Prod.snd) (R := (· < ·)), List.zipIdx_map_snd]
  exact List.pairwise_lt_range'

/-- A larger remainder is ranked first, and of equal ones the earlier. -/
theorem pairwise_ranksBefore (rs : List ℚ) :
    (ranked rs).Pairwise RanksBefore := by
  refine List.pairwise_iff_forall_sublist.2 fun {a b} hab => ?_
  have hOrder : b.1 ≤ a.1 :=
    List.pairwise_iff_forall_sublist.1 (pairwise_ranked rs) hab
  rcases hOrder.lt_or_eq with hLess | hTie
  · exact Or.inl hLess
  · -- among equal remainders the ranking is the list itself
    have hFilter := hab.filter fun c => decide (c.1 = a.1)
    rw [filter_ranked] at hFilter
    simp only [hTie, List.filter_cons, List.filter_nil, decide_true, if_true]
      at hFilter
    have hList := hFilter.trans List.filter_sublist
    exact Or.inr ⟨hTie.symm,
      List.pairwise_iff_forall_sublist.1 (pairwise_zipIdx rs) hList⟩

/-- What is rounded up is ranked before what is not. -/
theorem ranksBefore_of_roundedUp {parts : List ℚ} {i j : ℕ}
    (hi : i < parts.length) (hj : j < parts.length)
    (hUp : i ∈ roundedUp parts) (hDown : j ∉ roundedUp parts) :
    RanksBefore (remainder (inTenths parts[i]), i)
      (remainder (inTenths parts[j]), j) := by
  set rs := parts.map fun p => remainder (inTenths p) with hrs
  have hAt : ∀ a ∈ ranked rs, ∀ k, (hk : k < parts.length) → a.2 = k →
      a = (remainder (inTenths parts[k]), k) := by
    intro a ha k hk hPosition
    have hMem := List.mem_zipIdx' ((ranked_perm rs).mem_iff.1 ha)
    subst hPosition
    refine Prod.ext ?_ rfl
    rw [hMem.2]
    simp [hrs]
  have hSplit := List.take_append_drop (shortage parts) (ranked rs)
  have hCut := pairwise_ranksBefore rs
  rw [← hSplit, List.pairwise_append] at hCut
  rw [roundedUp, byRemainder_eq, ← hrs, ← List.map_take] at hUp hDown
  obtain ⟨a, ha, hai⟩ := List.mem_map.1 hUp
  have hjAll : j ∈ (ranked rs).map Prod.snd := by
    rw [hrs, ← byRemainder_eq, (byRemainder_perm parts).mem_iff, List.mem_range]
    exact hj
  rw [← hSplit, List.map_append, List.mem_append] at hjAll
  obtain ⟨b, hb, hbj⟩ := List.mem_map.1 (hjAll.resolve_left hDown)
  have hBefore := hCut.2.2 a ha b hb
  rw [hAt a (List.mem_of_mem_take ha) i hi hai,
    hAt b (List.mem_of_mem_drop hb) j hj hbj] at hBefore
  exact hBefore

/-! ## The order of what is shown -/

theorem inTenths_lt {p q : ℚ} (h : p < q) : inTenths p < inTenths q :=
  mul_lt_mul_of_pos_right h (by norm_num)

section Order

variable {parts : List ℚ} (h : ∀ p ∈ parts, 0 ≤ p) {i j : ℕ}
  (hi : i < parts.length) (hj : j < parts.length)

include h in
/-- Among parts that are not negative, one rounded up has the larger fraction,
or an equal one and stands first. -/
theorem fract_order (hUp : i ∈ roundedUp parts) (hDown : j ∉ roundedUp parts) :
    Int.fract (inTenths parts[j]) < Int.fract (inTenths parts[i]) ∨
      Int.fract (inTenths parts[i]) = Int.fract (inTenths parts[j]) ∧
        i < j := by
  have hBefore := ranksBefore_of_roundedUp hi hj hUp hDown
  rw [remainder_of_nonneg (inTenths_nonneg (h _ (List.getElem_mem hi))),
    remainder_of_nonneg (inTenths_nonneg (h _ (List.getElem_mem hj)))]
    at hBefore
  exact hBefore

include h in
/-- A smaller part is not shown larger. -/
theorem apportion_le_of_lt (hi' : i < (apportion parts).length)
    (hj' : j < (apportion parts).length) (hLess : parts[i] < parts[j]) :
    (apportion parts)[i] ≤ (apportion parts)[j] := by
  have hTenths := inTenths_lt hLess
  have hFloor := Int.floor_mono hTenths.le
  rw [getElem_apportion hi hi', getElem_apportion hj hj']
  by_cases hUp : i ∈ roundedUp parts
  · by_cases hDown : j ∈ roundedUp parts
    · rw [if_pos hUp, if_pos hDown]
      omega
    · -- with equal floors the larger part would have the larger fraction
      have hNext : ⌊inTenths parts[i]⌋ ≠ ⌊inTenths parts[j]⌋ := by
        intro hSame
        have hFract := fract_order h hi hj hUp hDown
        unfold Int.fract at hFract
        rw [hSame] at hFract
        rcases hFract with hLarger | ⟨hTie, -⟩
        · linarith
        · linarith
      rw [if_pos hUp, if_neg hDown]
      omega
  · rw [if_neg hUp]
    split <;> omega

include h in
/-- Of equal parts the earlier is shown as the later or one tenth larger. -/
theorem apportion_of_eq (hi' : i < (apportion parts).length)
    (hj' : j < (apportion parts).length) (hSame : parts[i] = parts[j])
    (hBefore : i < j) :
    (apportion parts)[j] ≤ (apportion parts)[i] ∧
      (apportion parts)[i] ≤ (apportion parts)[j] + 1 := by
  rw [getElem_apportion hi hi', getElem_apportion hj hj', hSame]
  by_cases hUp : j ∈ roundedUp parts
  · have hUpToo : i ∈ roundedUp parts := by
      by_contra hDown
      have hFract := fract_order h hj hi hUp hDown
      rw [hSame] at hFract
      have hAfter := (hFract.resolve_left (lt_irrefl _)).2
      omega
    rw [if_pos hUp, if_pos hUpToo]
    omega
  · rw [if_neg hUp]
    split <;> omega

end Order

/-- **The order of what is shown.** Of parts that are not negative, a smaller
one is never shown larger. Equal ones are shown at most one tenth apart, the
earlier at least as large. A part that gets an extra tenth has a larger
fraction than one that gets none, or an equal one and stands first. -/
theorem apportion_order (parts : List ℚ) (h : ∀ p ∈ parts, 0 ≤ p) :
    ∃ shown : List ℤ,
      percentsRead (apportionedTexts parts) = (percents shown).map some ∧
      shown.length = parts.length ∧
      ∀ (i j : ℕ) (p q : ℚ) (s t : ℤ),
        (parts.zip shown)[i]? = some (p, s) →
        (parts.zip shown)[j]? = some (q, t) →
        (s = ⌊inTenths p⌋ ∨ s = ⌊inTenths p⌋ + 1) ∧
        (p < q → s ≤ t) ∧
        (p = q → i < j → t ≤ s ∧ s ≤ t + 1) ∧
        (s = ⌊inTenths p⌋ + 1 → t = ⌊inTenths q⌋ →
          Int.fract (inTenths q) < Int.fract (inTenths p) ∨
          Int.fract (inTenths p) = Int.fract (inTenths q) ∧ i < j) := by
  refine ⟨apportion parts, percentsRead_apportionedTexts parts,
    length_apportion parts, ?_⟩
  intro i j p q s t hRow hRow'
  rw [List.getElem?_zip_eq_some] at hRow hRow'
  obtain ⟨⟨hi, hp⟩, ⟨hi', hs⟩⟩ := hRow.imp List.getElem?_eq_some_iff.1
    List.getElem?_eq_some_iff.1
  obtain ⟨⟨hj, hq⟩, ⟨hj', ht⟩⟩ := hRow'.imp List.getElem?_eq_some_iff.1
    List.getElem?_eq_some_iff.1
  dsimp only at hp hs hq ht
  subst hp hs hq ht
  refine ⟨?_, apportion_le_of_lt h hi hj hi' hj',
    apportion_of_eq h hi hj hi' hj', ?_⟩
  · rw [getElem_apportion hi hi']
    split
    · exact Or.inr rfl
    · exact Or.inl (add_zero _)
  · intro hExtra hNone
    have hUp : i ∈ roundedUp parts := by
      by_contra hDown
      rw [getElem_apportion hi hi', if_neg hDown] at hExtra
      omega
    have hDown : j ∉ roundedUp parts := by
      intro hUp'
      rw [getElem_apportion hj hj', if_pos hUp'] at hNone
      omega
    exact fract_order h hi hj hUp hDown

/-- Of three equal thirds the first is shown with the missing tenth. -/
theorem apportion_order_thirds :
    (∀ p ∈ [(1 / 3 : ℚ), 1 / 3, 1 / 3], 0 ≤ p) ∧
      ∃ shown : List ℤ,
        percentsRead (apportionedTexts [1 / 3, 1 / 3, 1 / 3]) =
          (percents shown).map some ∧
        ∀ s t, shown[0]? = some s → shown[2]? = some t → t ≤ s ∧ s ≤ t + 1 := by
  have hNonneg : ∀ p ∈ [(1 / 3 : ℚ), 1 / 3, 1 / 3], 0 ≤ p := by norm_num
  obtain ⟨shown, hTexts, -, hOrder⟩ := apportion_order _ hNonneg
  refine ⟨hNonneg, shown, hTexts, fun s t hs ht => ?_⟩
  have hRows := hOrder 0 2 (1 / 3) (1 / 3) s t
    (List.getElem?_zip_eq_some.2 ⟨rfl, hs⟩)
    (List.getElem?_zip_eq_some.2 ⟨rfl, ht⟩)
  exact hRows.2.2.1 rfl (by norm_num)

end ValueMix.Number
