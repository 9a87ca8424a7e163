import Mathlib
import ValueMix.Proofs.Drawing
import ValueMix.Proofs.Lookup

/-!
# Equal distributions

Distributions are compared by values and cumulative probabilities, but draws are
looked up in the thresholds. In a table that is in order the thresholds are
those of the cumulative probabilities, so distributions that compare equal
cannot be told apart by drawing from them.

Values are compared with an equality of their own, which need not be the
identity. Where it is, distributions that compare equal are the same.

## Main results

* `Tabulated.ext` — a table is determined by what is compared.
* `ofMarginals_single` — a single value takes the whole mass.
* `equality_sound` — what distributions that compare equal have in common.
-/

namespace ValueMix.Distribution

variable {α σ : Type} [WordSource σ]

/-! ## What determines a table -/

/-- The number of entries can be read off the cumulative probabilities. -/
theorem size_congr {d e : Distribution α} (h : d.cumulatives = e.cumulatives) :
    d.size = e.size := by
  rw [← length_cumulatives, h, length_cumulatives]

namespace Tabulated

variable {d e : Distribution α}

/-- Every cell is the one that its value and its end determine. -/
theorem toList_cells (h : d.Tabulated) :
    d.cells.toList = List.zipWith Cell.endingAt d.values d.cumulatives := by
  have hCells : d.cells.toList.map (fun c => Cell.endingAt c.value c.upper) =
      d.cells.toList := by
    refine (List.map_congr_left fun c hc => ?_).trans (List.map_id _)
    show Cell.mk c.value c.upper (Binary64.threshold c.upper) = c
    rw [← h.thresholds c hc]
  rw [values, cumulatives, List.zipWith_map, List.zipWith_self, hCells]

/-- A table is determined by its values and its cumulative probabilities. -/
theorem ext (hd : d.Tabulated) (he : e.Tabulated)
    (hValues : d.values = e.values)
    (hUppers : d.cumulatives = e.cumulatives) : d = e := by
  have hCells : d.cells.toList = e.cells.toList := by
    rw [hd.toList_cells, he.toList_cells, hValues, hUppers]
  obtain ⟨cells, hpos⟩ := d
  obtain ⟨cells', hpos'⟩ := e
  obtain rfl : cells = cells' := Array.toList_inj.1 hCells
  rfl

/-- Which entry a draw selects depends on the cumulative probabilities only. -/
theorem indexAt_congr (hd : d.Tabulated) (he : e.Tabulated)
    (h : d.cumulatives = e.cumulatives) (x : Binary64) :
    d.indexAt x = e.indexAt x := by
  rw [hd.indexAt_eq_exactIndexAt, he.indexAt_eq_exactIndexAt, exactIndexAt,
    exactIndexAt, h, size_congr h]

theorem nextIndex_congr (hd : d.Tabulated) (he : e.Tabulated)
    (h : d.cumulatives = e.cumulatives) :
    (d.nextIndex : σ → ℕ × σ) = e.nextIndex := by
  have hSize : d.cells.size = e.cells.size := size_congr h
  funext source
  rw [nextIndex, nextIndex, hSize]
  simp only [hd.indexAt_congr he h]

theorem sampleIndices_congr (hd : d.Tabulated) (he : e.Tabulated)
    (h : d.cumulatives = e.cumulatives) (n : ℕ) (source : σ) :
    d.sampleIndices n source = e.sampleIndices n source := by
  rw [sampleIndices, sampleIndices, hd.nextIndex_congr he h]

end Tabulated

/-! ## A single value -/

/-- A single value takes the whole mass, whatever share it claims. -/
theorem ofMarginals_single (v : α) (p : ℚ) (h : [(v, p)] ≠ []) :
    ofMarginals [(v, p)] h = uniform v := by
  have hCell : Cell.endingAt v 1 = ⟨v, 1, Binary64.one⟩ := by
    rw [Cell.endingAt, Binary64.threshold_one]
  simp only [ofMarginals, layOut, uniform, hCell]

/-- A single entry that fits has the distribution of its value. -/
theorem ofEntries_single {e : Entry α} (hValid : e.fault? = none)
    (hFits : (Builder.holding [e]).Fits) :
    ofEntries [e] = .ok (uniform e.value) := by
  rw [ofEntries_of_valid (List.forall_mem_singleton.2 hValid),
    Builder.create_of_fits hFits]
  obtain ⟨v, share⟩ := e
  cases share with
  | fixed p => exact congrArg Except.ok (ofMarginals_single v p _)
  | weighted w => exact congrArg Except.ok (ofMarginals_single v _ _)

theorem ofEntries_fixed_one (v : α) :
    ofEntries [⟨v, .fixed 1⟩] = .ok (uniform v) := by
  apply ofEntries_single
  · simp [Entry.fault?]
  · exact Or.inl ⟨add_zero 1, rfl⟩

theorem ofEntries_weighted (v : α) {w : ℚ} (hw : 0 < w) :
    ofEntries [⟨v, .weighted w⟩] = .ok (uniform v) := by
  apply ofEntries_single
  · simp [Entry.fault?, hw]
  · exact Or.inr ⟨zero_lt_one, List.cons_ne_nil _ _⟩

/-! ## Comparing -/

/-- Lists that compare equal have equal members, place by place. -/
theorem forall₂_of_beq [BEq α] {vs ws : List α} (h : (vs == ws) = true) :
    List.Forall₂ (fun v w => (v == w) = true) vs ws := by
  induction vs generalizing ws with
  | nil =>
      cases ws with
      | nil => exact .nil
      | cons w ws => cases h
  | cons v vs ih =>
      cases ws with
      | nil => cases h
      | cons w ws =>
          rw [List.cons_beq_cons, Bool.and_eq_true] at h
          exact .cons h.1 (ih h.2)

theorem beq_iff [BEq α] {d e : Distribution α} :
    (d == e) = true ↔
      (d.values == e.values) = true ∧ d.cumulatives = e.cumulatives := by
  show (d.values == e.values && d.cumulatives == e.cumulatives) = true ↔ _
  rw [Bool.and_eq_true]
  exact and_congr_right fun _ => beq_iff_eq

/-- What a view shows of a result, if it shows anything. -/
theorem exists_ok_of_toOption {ε β γ : Type} {result : Except ε β}
    {view : β → γ} {seen : γ} (h : result.toOption.map view = some seen) :
    ∃ x, result = .ok x ∧ view x = seen := by
  cases result with
  | error err => cases h
  | ok x => exact ⟨x, rfl, Option.some.inj h⟩

section Comparing

variable [BEq α] {d e : Distribution α} (hd : d.Tabulated) (he : e.Tabulated)
  (hValues : (d.values == e.values) = true)
  (hUppers : d.cumulatives = e.cumulatives)

include hValues in
/-- At an index of both tables the values are equal. -/
theorem beq_at {i j : ℕ} (hij : i = j) (hi : i < d.cells.size)
    (hj : j < e.cells.size) :
    (d.cells[i].value == e.cells[j].value) = true := by
  subst hij
  have hRelated := (forall₂_of_beq hValues).get (i := i)
    (by rwa [length_values]) (by rwa [length_values])
  simpa [values] using hRelated

include hd he hValues hUppers

theorem valueAt_beq (x : Binary64) : (d.valueAt x == e.valueAt x) = true :=
  beq_at hValues (hd.indexAt_congr he hUppers x) _ _

/-- Draws select the same index, so they yield equal values. -/
theorem next_beq (source : σ) :
    ((d.next source).1 == (e.next source).1) = true ∧
      (d.next source).2 = (e.next source).2 := by
  have hIndex : d.nextIndex source = e.nextIndex source :=
    congrFun (hd.nextIndex_congr he hUppers) source
  constructor
  · exact beq_at hValues (congrArg Prod.fst hIndex) _ _
  · show (d.nextIndex source).2 = (e.nextIndex source).2
    rw [hIndex]

/-- Reports agree on everything but the values, and on those as well if equal
values are shown alike. -/
theorem collect_congr [ToString α]
    (hShown : ∀ v w : α, (v == w) = true → toString v = toString w) (n : ℕ)
    (source : σ) : Report.collect d n source = Report.collect e n source := by
  have hTexts : d.values.map toString = e.values.map toString := by
    rw [← List.forall₂_eq_eq_eq, List.forall₂_map_left_iff,
      List.forall₂_map_right_iff]
    exact (forall₂_of_beq hValues).imp hShown
  have hMarginals : d.marginals = e.marginals := by
    rw [marginals, marginals, hUppers]
  rw [Report.collect_eq, Report.collect_eq, size_congr hUppers,
    hd.sampleIndices_congr he hUppers, Report.ofCounts_congr hTexts hMarginals]

end Comparing

/-- **What distributions that compare equal have in common.** The thresholds
of a distribution that can be built are those of its cumulative probabilities.
So if another one compares equal, every number selects the same index and equal
values in both, and so does every run of draws from any source, which takes the
same words. If equal values are shown alike the reports are the same, and if
they are identical the distributions are. In particular a single value has one
distribution, whether it claims the whole mass or any weight. -/
theorem equality_sound [BEq α] {d : Distribution α} (hd : Reachable d) :
    (∀ c ∈ d.cells.toList, c.threshold = Binary64.threshold c.upper) ∧
    (∀ e : Distribution α, Reachable e → (d == e) = true →
      (∀ x, d.indexAt x = e.indexAt x ∧ (d.valueAt x == e.valueAt x) = true) ∧
      (∀ (σ : Type) [WordSource σ] (source : σ) (n : ℕ),
        d.sampleIndices n source = e.sampleIndices n source ∧
        List.Forall₂ (fun v w => (v == w) = true) (d.sample n source).1
          (e.sample n source).1 ∧
        (d.sample n source).2 = (e.sample n source).2 ∧
        (∀ [ToString α],
          (∀ v w : α, (v == w) = true → toString v = toString w) →
          Report.collect d n source = Report.collect e n source)) ∧
      (∀ [LawfulBEq α], d = e)) ∧
    (∀ v : α, ofEntries [⟨v, .fixed 1⟩] = .ok (uniform v) ∧
      ∀ w : ℚ, 0 < w → ofEntries [⟨v, .weighted w⟩] = .ok (uniform v)) := by
  have hTable := hd.tabulated
  refine ⟨hTable.thresholds, ?_, fun v => ⟨ofEntries_fixed_one v, ?_⟩⟩
  · intro e he hEqual
    have hTable' := he.tabulated
    obtain ⟨hValues, hUppers⟩ := beq_iff.1 hEqual
    refine ⟨fun x => ⟨?_, ?_⟩, ?_, ?_⟩
    · exact hTable.indexAt_congr hTable' hUppers x
    · exact valueAt_beq hTable hTable' hValues hUppers x
    · intro σ _ source n
      have hSample := draws_related (f := d.next) (g := e.next)
        (R := fun v w => (v == w) = true)
        (next_beq hTable hTable' hValues hUppers) n source
      refine ⟨?_, hSample.1, hSample.2, ?_⟩
      · exact hTable.sampleIndices_congr hTable' hUppers n source
      · intro _ hShown
        exact collect_congr hTable hTable' hValues hUppers hShown n source
    · intro _
      exact hTable.ext hTable' (eq_of_beq hValues) hUppers
  · intro w hw
    exact ofEntries_weighted v hw

/-- A fixed half with a weighted rest compares equal to two equal weights. -/
theorem equality_sound_halves :
    ∃ d e : Distribution String,
      ofEntries [⟨"low", .fixed (1 / 2)⟩, ⟨"high", .weighted 3⟩] = .ok d ∧
      ofEntries [⟨"low", .weighted 1⟩, ⟨"high", .weighted 1⟩] = .ok e ∧
      (d == e) = true ∧ d = e := by
  have hFixed : (ofEntries
      [⟨"low", .fixed (1 / 2)⟩, ⟨"high", .weighted 3⟩]).toOption.map
      (fun d => (d.values, d.cumulatives)) =
        some (["low", "high"], [1 / 2, 1]) := by decide +kernel
  have hWeighted : (ofEntries
      [⟨"low", .weighted 1⟩, ⟨"high", .weighted 1⟩]).toOption.map
      (fun d => (d.values, d.cumulatives)) =
        some (["low", "high"], [1 / 2, 1]) := by decide +kernel
  obtain ⟨d, hd, hTable⟩ := exists_ok_of_toOption hFixed
  obtain ⟨e, he, hTable'⟩ := exists_ok_of_toOption hWeighted
  have hSame : (d.values, d.cumulatives) = (e.values, e.cumulatives) :=
    hTable.trans hTable'.symm
  rw [Prod.mk.injEq] at hSame
  have hEqual : (d == e) = true :=
    beq_iff.2 ⟨by rw [hSame.1, beq_self_eq_true], hSame.2⟩
  have hSound := (equality_sound (Reachable.ofEntries _ hd)).2.1 e
    (Reachable.ofEntries _ he) hEqual
  exact ⟨d, e, hd, he, hEqual, hSound.2.2⟩

end ValueMix.Distribution
