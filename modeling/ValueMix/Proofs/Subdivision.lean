import Mathlib
import ValueMix.Proofs.EntryOrder
import ValueMix.Proofs.Normalization

/-!
# Entries in parts

A draw belongs to the first cell that ends above it, and to the last cell if
none does. So a cell may be cut in two that hold the same value, and every draw
still yields the value that it yielded before. A distribution is cut in this way
when one of its entries is replaced by two that share what it claims.

## Main results

* `Tabulated.owner?_cells` — the value of a draw is that of the first cell above
  it.
* `valueAt_of_cut` — cutting a share in a table changes no value of a draw.
* `ofEntries_of_splitsInto` — building from a list in which an entry is split.
-/

namespace ValueMix

variable {α : Type}

namespace Distribution

/-! ## The owner of a draw -/

/-- The first cell that ends above a draw, or the last one if none does. -/
def owner? (cells : List (Cell α)) (x : Binary64) : Option (Cell α) :=
  (cells.find? fun c => !c.threshold.le x).or cells.getLast?

/-- The value of a draw is that of its owner. -/
theorem Tabulated.owner?_cells {d : Distribution α} (h : d.Tabulated)
    (x : Binary64) :
    (owner? d.cells.toList x).map (·.value) = some (d.valueAt x) := by
  have hPos : 0 < d.cells.size := d.cells_pos
  have hBound : reached d x ≤ d.cells.size := reached_le_size d x
  have hIndex : d.indexAt x = min (reached d x) (d.cells.size - 1) :=
    h.indexAt_eq x
  have hValue : some (d.valueAt x) = d.cells[d.indexAt x]?.map (·.value) := by
    rw [Array.getElem?_eq_getElem (d.indexAt_lt x)]
    rfl
  by_cases hSome : reached d x < d.cells.size
  · have hFind : d.cells.toList.find? (fun c => !c.threshold.le x) =
        some d.cells[reached d x] := by
      rw [List.find?_eq_some_iff_getElem]
      refine ⟨?_, reached d x, by simpa using hSome, rfl, ?_⟩
      · rw [Bool.not_eq_true', Bool.eq_false_iff, ne_eq,
          h.threshold_le_iff_lt_reached x hSome]
        exact lt_irrefl _
      · intro i hi
        rw [Bool.not_not, Array.getElem_toList,
          h.threshold_le_iff_lt_reached x (hi.trans hSome)]
        exact hi
    have hFirst : d.indexAt x = reached d x := by omega
    rw [owner?, hFind, hValue, hFirst, Array.getElem?_eq_getElem hSome]
    rfl
  · have hFind : d.cells.toList.find? (fun c => !c.threshold.le x) = none := by
      rw [List.find?_eq_none]
      intro c hc
      obtain ⟨i, hi, rfl⟩ := List.getElem_of_mem hc
      have hi' : i < d.cells.size := by simpa using hi
      rw [Bool.not_eq_true', Bool.not_eq_false, Array.getElem_toList,
        h.threshold_le_iff_lt_reached x hi']
      exact hi'.trans_le (not_lt.1 hSome)
    have hLast : d.indexAt x = d.cells.size - 1 := by omega
    rw [owner?, hFind, Option.none_or, List.getLast?_eq_getElem?, hValue, hLast,
      Array.getElem?_toList, Array.length_toList]

/-- In front of a cell there may be another one with its value, if whoever
reaches the end of the one reaches that of the other. -/
theorem owner?_insert {below above : List (Cell α)} {c c' : Cell α}
    {x : Binary64} (hValue : c'.value = c.value)
    (hReached : c.threshold.le x = true → c'.threshold.le x = true) :
    (owner? (below ++ c' :: c :: above) x).map (·.value) =
      (owner? (below ++ c :: above) x).map (·.value) := by
  have hLast : (below ++ c' :: c :: above).getLast? =
      (below ++ c :: above).getLast? := by
    rw [List.getLast?_append, List.getLast?_append, List.getLast?_cons_cons]
  rw [owner?, owner?, hLast, List.find?_append, List.find?_append]
  cases below.find? fun c => !c.threshold.le x with
  | some b => rfl
  | none =>
      -- a draw past `c'` goes on to `c` in both lists; any other is before `c`
      -- too
      by_cases hPast : c'.threshold.le x = true
      · rw [List.find?_cons_of_neg (by simpa using hPast)]
      · have hBefore : ¬ c.threshold.le x = true := fun h => hPast (hReached h)
        rw [List.find?_cons_of_pos (by simpa using hPast),
          List.find?_cons_of_pos (by simpa using hBefore)]
        exact congrArg some hValue

/-! ## Cutting a share -/

/-- The cells of shares that fill an interval from `below` upwards. -/
def cellsFrom (below : ℚ) : List (α × ℚ) → List (Cell α)
  | [] => []
  | g :: rest => Cell.endingAt g.1 (below + g.2) :: cellsFrom (below + g.2) rest

theorem cellsFrom_append (below : ℚ) (gs hs : List (α × ℚ)) :
    cellsFrom below (gs ++ hs) =
      cellsFrom below gs ++ cellsFrom (below + (gs.map Prod.snd).sum) hs := by
  induction gs generalizing below with
  | nil => simp [cellsFrom]
  | cons g rest ih =>
      rw [List.cons_append, cellsFrom, ih, List.map_cons, List.sum_cons,
        cellsFrom, List.cons_append, add_assoc]

theorem cellsFrom_zip_steps (below : ℚ) (vs : List α) (cs : List ℚ) :
    cellsFrom below (vs.zip (steps below cs)) =
      List.zipWith Cell.endingAt vs cs := by
  induction cs generalizing below vs with
  | nil => rw [steps, List.zip_nil_right, List.zipWith_nil_right, cellsFrom]
  | cons c rest ih =>
      cases vs with
      | nil => rfl
      | cons v vs =>
          rw [steps, List.zip_cons_cons, cellsFrom, List.zipWith_cons_cons,
            add_sub_cancel, ih]

theorem Tabulated.toList_cells_eq_cellsFrom {d : Distribution α}
    (h : d.Tabulated) : d.cells.toList = cellsFrom 0 d.entries := by
  rw [h.toList_cells, entries, marginals, cellsFrom_zip_steps]

/-- A list in which the share of one value, at position `n`, is cut in two. -/
inductive CutAt : ℕ → List (α × ℚ) → List (α × ℚ) → Prop where
  | intro (below above : List (α × ℚ)) (v : α) {p p₁ p₂ : ℚ} (h₁ : 0 < p₁)
      (h₂ : 0 < p₂) (h : p₁ + p₂ = p) :
      CutAt below.length (below ++ (v, p) :: above)
        (below ++ (v, p₁) :: (v, p₂) :: above)

/-- Cutting a share in a table changes no value of a draw. -/
theorem valueAt_of_cut {d d' : Distribution α} (hd : d.Tabulated)
    (hd' : d'.Tabulated) {n : ℕ} (hCut : CutAt n d.entries d'.entries)
    (x : Binary64) : d'.valueAt x = d.valueAt x := by
  have hCells := hd.toList_cells_eq_cellsFrom
  have hCells' := hd'.toList_cells_eq_cellsFrom
  -- `CutAt` speaks of two lists, so the entries are replaced by variables first
  generalize d.entries = gs at hCut hCells
  generalize d'.entries = gs' at hCut hCells'
  obtain ⟨below, above, v, h₁, h₂, rfl⟩ := hCut
  rename_i p₁ p₂
  rw [cellsFrom_append, zero_add, cellsFrom] at hCells
  rw [cellsFrom_append, zero_add, cellsFrom, cellsFrom, add_assoc] at hCells'
  generalize (below.map Prod.snd).sum = start at hCells hCells'
  have hInner : start + p₁ ∈ d'.cumulatives := by
    rw [cumulatives, hCells']
    simp [Cell.endingAt]
  have hUpper : start + (p₁ + p₂) ∈ d'.cumulatives := by
    rw [cumulatives, hCells']
    simp [Cell.endingAt]
  have hOwner : (owner? d'.cells.toList x).map (·.value) =
      (owner? d.cells.toList x).map (·.value) := by
    rw [hCells, hCells']
    refine owner?_insert ?_ fun hReached => ?_
    · rfl
    · exact Binary64.threshold_le_of_le (hd'.cumulative_pos hInner).le
        (by linarith) (hd'.cumulative_le_one hUpper) hReached
  rw [hd.owner?_cells, hd'.owner?_cells] at hOwner
  exact Option.some.inj hOwner

namespace CutAt

variable {n : ℕ} {gs gs' : List (α × ℚ)} (h : CutAt n gs gs')

include h

theorem sum_eq : (gs'.map Prod.snd).sum = (gs.map Prod.snd).sum := by
  obtain ⟨below, above, v, -, -, rfl⟩ := h
  simp [add_assoc]

theorem ne_nil : gs ≠ [] ∧ gs' ≠ [] := by
  obtain ⟨below, above, v, -, -, -⟩ := h
  simp

theorem append_left (hs : List (α × ℚ)) :
    CutAt (hs.length + n) (hs ++ gs) (hs ++ gs') := by
  obtain ⟨below, above, v, h₁, h₂, hSum⟩ := h
  rw [← List.length_append, ← List.append_assoc, ← List.append_assoc]
  exact .intro _ above v h₁ h₂ hSum

theorem append_right (hs : List (α × ℚ)) : CutAt n (gs ++ hs) (gs' ++ hs) := by
  obtain ⟨below, above, v, h₁, h₂, hSum⟩ := h
  rw [List.append_assoc, List.append_assoc]
  exact .intro below _ v h₁ h₂ hSum

/-- Parts of a weight are weights of parts. -/
theorem map_share {r t : ℚ} (hr : 0 < r) (ht : 0 < t) :
    CutAt n (gs.map fun g => (g.1, r * g.2 / t))
      (gs'.map fun g => (g.1, r * g.2 / t)) := by
  obtain ⟨below, above, v, h₁, h₂, rfl⟩ := h
  rename_i p₁ p₂
  have hSum : r * p₁ / t + r * p₂ / t = r * (p₁ + p₂) / t := by
    rw [mul_add, add_div]
  have hPart₁ : 0 < r * p₁ / t := div_pos (mul_pos hr h₁) ht
  have hPart₂ : 0 < r * p₂ / t := div_pos (mul_pos hr h₂) ht
  have hCut := CutAt.intro (below.map fun g => (g.1, r * g.2 / t))
    (above.map fun g => (g.1, r * g.2 / t)) v hPart₁ hPart₂ hSum
  rw [List.length_map] at hCut
  simpa using hCut

end CutAt

end Distribution

/-! ## Splitting an entry -/

/-- An entry and two that together claim what it claims. -/
inductive Entry.SplitsInto : Entry α → Entry α → Entry α → Prop where
  | fixed (v : α) {p p₁ p₂ : ℚ} (h₁ : 0 < p₁) (h₂ : 0 < p₂) (h : p₁ + p₂ = p) :
      SplitsInto ⟨v, .fixed p⟩ ⟨v, .fixed p₁⟩ ⟨v, .fixed p₂⟩
  | weighted (v : α) {w w₁ w₂ : ℚ} (h₁ : 0 < w₁) (h₂ : 0 < w₂)
      (h : w₁ + w₂ = w) :
      SplitsInto ⟨v, .weighted w⟩ ⟨v, .weighted w₁⟩ ⟨v, .weighted w₂⟩

/-- The position in the table of an entry between others: behind the entries of
its kind that come before it and, if it is weighted, behind all fixed ones. -/
def Entry.place (e : Entry α) (before after : List (Entry α)) : ℕ :=
  match e.share with
  | .fixed _ => (before.filterMap Entry.fixedPart).length
  | .weighted _ =>
      ((before ++ after).filterMap Entry.fixedPart).length +
        (before.filterMap Entry.weightedPart).length

/-- Parts of a valid entry are valid. -/
theorem Entry.SplitsInto.fault? {e e₁ e₂ : Entry α} (h : e.SplitsInto e₁ e₂)
    (hValid : e.fault? = none) : e₁.fault? = none ∧ e₂.fault? = none := by
  cases h with
  | fixed v h₁ h₂ h =>
      have hRange := fixedPart_of_valid hValid rfl
      exact ⟨if_pos ⟨h₁, by linarith⟩, if_pos ⟨h₂, by linarith⟩⟩
  | weighted v h₁ h₂ h => exact ⟨if_pos h₁, if_pos h₂⟩

namespace Builder

/-- Builders of which the one holds, in two parts, an entry of the other; the
position is that of the entry in the table. -/
inductive CutAt : ℕ → Builder α → Builder α → Prop where
  | fixed {n : ℕ} {b b' : Builder α} (h : Distribution.CutAt n b.fixed b'.fixed)
      (hOther : b'.weighted = b.weighted) : CutAt n b b'
  | weighted {n : ℕ} {b b' : Builder α}
      (h : Distribution.CutAt n b.weighted b'.weighted)
      (hOther : b'.fixed = b.fixed) : CutAt (b.fixed.length + n) b b'

theorem cutAt_holding {e e₁ e₂ : Entry α} (h : e.SplitsInto e₁ e₂)
    (before after : List (Entry α)) :
    CutAt (e.place before after) (holding (before ++ e :: after))
      (holding (before ++ e₁ :: e₂ :: after)) := by
  cases h with
  | fixed v h₁ h₂ h =>
      apply CutAt.fixed
      · simp only [holding, List.filterMap_append, List.filterMap_cons,
          Entry.fixedPart]
        exact .intro _ _ v h₁ h₂ h
      · simp only [holding, List.filterMap_append, List.filterMap_cons,
          Entry.weightedPart]
  | @weighted v w w₁ w₂ h₁ h₂ h =>
      have hFixed : (before ++ after).filterMap Entry.fixedPart =
          (holding (before ++ ⟨v, .weighted w⟩ :: after)).fixed := by
        simp only [holding, List.filterMap_append, List.filterMap_cons,
          Entry.fixedPart]
      rw [Entry.place, hFixed]
      apply CutAt.weighted
      · simp only [holding, List.filterMap_append, List.filterMap_cons,
          Entry.weightedPart]
        exact .intro _ _ v h₁ h₂ h
      · simp only [holding, List.filterMap_append, List.filterMap_cons,
          Entry.fixedPart]

namespace CutAt

variable {n : ℕ} {b b' : Builder α} (h : CutAt n b b')

include h

theorem fixedTotal_eq : b'.fixedTotal = b.fixedTotal := by
  rw [fixedTotal_eq_sum, fixedTotal_eq_sum]
  cases h with
  | fixed h _ => exact h.sum_eq
  | weighted _ hOther => rw [hOther]

theorem totalWeight_eq : b'.totalWeight = b.totalWeight := by
  rw [totalWeight_eq_sum, totalWeight_eq_sum]
  cases h with
  | fixed _ hOther => rw [hOther]
  | weighted h _ => exact h.sum_eq

theorem fits_iff : b'.Fits ↔ b.Fits := by
  have hNone : b'.weighted = [] ↔ b.weighted = [] := by
    cases h with
    | fixed _ hOther => rw [hOther]
    | weighted h _ => simp [h.ne_nil.1, h.ne_nil.2]
  simp only [Fits, ne_eq, h.fixedTotal_eq, hNone]

/-- The share of that entry is cut, and no other share changes. -/
theorem marginals (hb : Sound b) (hFits : b.Fits) :
    Distribution.CutAt n b.marginals b'.marginals := by
  rw [Builder.marginals, Builder.marginals, h.fixedTotal_eq, h.totalWeight_eq]
  cases h with
  | fixed h hOther =>
      rw [hOther]
      exact h.append_right _
  | weighted h hOther =>
      have hSome : b.weighted ≠ [] := h.ne_nil.1
      have hLow : b.fixedTotal < 1 := by
        rcases hFits with ⟨-, hNone⟩ | ⟨hLow, -⟩
        · exact absurd hNone hSome
        · exact hLow
      rw [hOther]
      exact
        (h.map_share (sub_pos.2 hLow) (hb.totalWeight_pos hSome)).append_left _

end CutAt

end Builder

/-- **An entry in two parts.** Where a list builds a distribution, one of its
entries may be replaced by two with the same value that together claim the same.
Then every draw, in the range of probabilities or not, yields the same value as
before; the share of the entry is cut in two, and all other shares stay. -/
theorem Distribution.ofEntries_of_splitsInto {before after : List (Entry α)}
    {e e₁ e₂ : Entry α} (hSplit : e.SplitsInto e₁ e₂) {d : Distribution α}
    (h : ofEntries (before ++ e :: after) = .ok d) :
    ∃ d', ofEntries (before ++ e₁ :: e₂ :: after) = .ok d' ∧
      (∀ x, d'.valueAt x = d.valueAt x) ∧
      CutAt (e.place before after) d.entries d'.entries := by
  have hValid := (session_of_ofEntries h).2
  have hValid' : ∀ e' ∈ before ++ e₁ :: e₂ :: after, e'.fault? = none := by
    have hParts := hSplit.fault? (hValid e (by simp))
    intro e' he'
    rw [List.mem_append, List.mem_cons, List.mem_cons] at he'
    rcases he' with hBefore | rfl | rfl | hAfter
    · exact hValid e' (by simp [hBefore])
    · exact hParts.1
    · exact hParts.2
    · exact hValid e' (by simp [hAfter])
  have hb := Builder.sound_holding hValid
  have hb' := Builder.sound_holding hValid'
  have hCut := Builder.cutAt_holding hSplit before after
  rw [ofEntries_of_valid hValid, Builder.create_eq_ok_iff] at h
  obtain ⟨hFits, rfl⟩ := h
  have hFits' := hCut.fits_iff.2 hFits
  have hEntries := hCut.marginals hb hFits
  rw [← entries_ofMarginals hFits.marginals_ne_nil (hFits.sum_marginals hb),
    ← entries_ofMarginals hFits'.marginals_ne_nil (hFits'.sum_marginals hb')]
    at hEntries
  have hTable := hb.tabulated (Builder.create_of_fits hFits)
  have hTable' := hb'.tabulated (Builder.create_of_fits hFits')
  refine ⟨_, ?_, valueAt_of_cut hTable hTable' hEntries, hEntries⟩
  rw [ofEntries_of_valid hValid', Builder.create_of_fits hFits']

/-- A fixed half, added behind a weight, may be added as an eighth and three
eighths. -/
theorem Distribution.ofEntries_of_splitsInto_eighths :
    ∃ d d' : Distribution String,
      (⟨"b", .fixed (1 / 2)⟩ : Entry String).SplitsInto ⟨"b", .fixed (1 / 8)⟩
        ⟨"b", .fixed (3 / 8)⟩ ∧
      ofEntries [⟨"a", .weighted 5⟩, ⟨"b", .fixed (1 / 2)⟩] = .ok d ∧
      ofEntries [⟨"a", .weighted 5⟩, ⟨"b", .fixed (1 / 8)⟩,
        ⟨"b", .fixed (3 / 8)⟩] = .ok d' ∧
      (∀ x, d'.valueAt x = d.valueAt x) ∧ CutAt 0 d.entries d'.entries := by
  have hBuilt : (ofEntries
      [⟨"a", .weighted 5⟩, ⟨"b", .fixed (1 / 2)⟩]).toOption.map
      Distribution.values = some ["b", "a"] := by decide +kernel
  have hSplit : (⟨"b", .fixed (1 / 2)⟩ : Entry String).SplitsInto
      ⟨"b", .fixed (1 / 8)⟩ ⟨"b", .fixed (3 / 8)⟩ :=
    .fixed "b" (by norm_num) (by norm_num) (by norm_num)
  obtain ⟨d, hd, -⟩ := exists_ok_of_toOption hBuilt
  obtain ⟨d', hd', hValues, hCut⟩ :=
    @ofEntries_of_splitsInto String [⟨"a", .weighted 5⟩] [] _ _ _ hSplit d hd
  exact ⟨d, d', hSplit, hd, hd', hValues, hCut⟩

end ValueMix
