import Mathlib
import ValueMix.Proofs.Layout
import ValueMix.Sampling.Report

/-!
# Runs of draws

A run draws several times in a row from one source. Indices, values and counts
are three readings of the same run: draw by draw they belong together, and they
leave the source at the same place. That place is known beforehand, since every
draw takes one word, or none if there is only one entry.

## Main results

* `draws_add` — a run can be interrupted and continued.
* `draws_related` — runs whose draws belong together, belong together.
* `tally_spec`, `collect_eq` — a tally and a report count the indices of a run.
* `collect_draws` — what a report says about a run from any source.
-/

namespace ValueMix

/-! ## Words taken from a source -/

namespace WordSource

variable {σ : Type} [WordSource σ]

/-- The source behind the next `k` words. -/
def skip : ℕ → σ → σ
  | 0, source => source
  | k + 1, source => skip k (next source).2

theorem skip_add (k l : ℕ) (source : σ) :
    skip (k + l) source = skip l (skip k source) := by
  induction k generalizing source with
  | zero => rw [Nat.zero_add, skip]
  | succ k ih =>
      rw [Nat.succ_add, skip, skip]
      exact ih (next source).2

/-- A stream of words moves on by the number of words taken. -/
theorem skip_wordStream (k : ℕ) (word : ℕ → UInt64) (position : ℕ) :
    skip k (WordStream.mk word position) = ⟨word, position + k⟩ := by
  induction k generalizing position with
  | zero => rfl
  | succ k ih =>
      rw [skip]
      show skip k (WordStream.mk word (position + 1)) = _
      rw [ih, Nat.add_assoc, Nat.add_comm 1 k]

end WordSource

namespace Distribution

variable {α σ : Type}

/-! ## Runs -/

section Runs

variable {β γ : Type} {f : σ → β × σ} {g : σ → γ × σ}

theorem draws_succ (f : σ → β × σ) (n : ℕ) (source : σ) :
    draws f (n + 1) source =
      ((f source).1 :: (draws f n (f source).2).1,
        (draws f n (f source).2).2) :=
  rfl

@[simp] theorem length_draws (f : σ → β × σ) (n : ℕ) (source : σ) :
    (draws f n source).1.length = n := by
  induction n generalizing source with
  | zero => rfl
  | succ n ih => rw [draws_succ, List.length_cons, ih]

/-- A run can be interrupted and continued. -/
theorem draws_add (f : σ → β × σ) (n m : ℕ) (source : σ) :
    draws f (n + m) source =
      ((draws f n source).1 ++ (draws f m (draws f n source).2).1,
        (draws f m (draws f n source).2).2) := by
  induction n generalizing source with
  | zero => rw [Nat.zero_add]; rfl
  | succ n ih =>
      rw [Nat.succ_add, draws_succ, ih, draws_succ]
      rfl

/-- Two ways of drawing that belong together at every draw and leave the source
at the same place belong together over a whole run. -/
theorem draws_related {R : β → γ → Prop}
    (h : ∀ source, R (f source).1 (g source).1 ∧ (f source).2 = (g source).2)
    (n : ℕ) (source : σ) :
    List.Forall₂ R (draws f n source).1 (draws g n source).1 ∧
      (draws f n source).2 = (draws g n source).2 := by
  induction n generalizing source with
  | zero => exact ⟨.nil, rfl⟩
  | succ n ih =>
      have hRest := ih (g source).2
      rw [draws_succ, draws_succ, (h source).2]
      exact ⟨.cons (h source).1 hRest.1, hRest.2⟩

/-- The first items of an endless run are a run. -/
theorem take_corec' (f : σ → β × σ) (n : ℕ) (source : σ) :
    (Stream'.corec' f source).take n = (draws f n source).1 := by
  induction n generalizing source with
  | zero => rfl
  | succ n ih =>
      rw [Stream'.corec'_eq, Stream'.take_succ_cons, ih, draws_succ]

end Runs

variable [WordSource σ]

/-! ## Indices and values -/

/-- The number of words that a draw takes. -/
def wordsPerDraw (d : Distribution α) : ℕ := if d.size = 1 then 0 else 1

theorem snd_nextIndex (d : Distribution α) (source : σ) :
    (d.nextIndex source).2 = WordSource.skip d.wordsPerDraw source := by
  by_cases hOne : d.cells.size = 1
  · rw [nextIndex, if_pos hOne, wordsPerDraw, size, if_pos hOne]
    rfl
  · rw [nextIndex, if_neg hOne, wordsPerDraw, size, if_neg hOne]
    rfl

/-- A run takes as many words as its draws together. -/
theorem snd_sampleIndices (d : Distribution α) (n : ℕ) (source : σ) :
    (d.sampleIndices n source).2 =
      WordSource.skip (n * d.wordsPerDraw) source := by
  induction n generalizing source with
  | zero => rw [Nat.zero_mul]; rfl
  | succ n ih =>
      rw [Nat.succ_mul, Nat.add_comm (n * _), WordSource.skip_add,
        ← snd_nextIndex]
      exact ih (d.nextIndex source).2

theorem lt_of_mem_sampleIndices (d : Distribution α) {n : ℕ} {source : σ}
    {i : ℕ} (h : i ∈ (d.sampleIndices n source).1) : i < d.size := by
  induction n generalizing source with
  | zero => exact absurd h List.not_mem_nil
  | succ n ih =>
      rcases List.mem_cons.1 h with hFirst | hRest
      · rw [hFirst]
        exact d.nextIndex_lt source
      · exact ih hRest

theorem getElem?_values (d : Distribution α) {i : ℕ} (hi : i < d.cells.size) :
    d.values[i]? = some d.cells[i].value := by
  simp [values, hi]

/-- Drawing a value is drawing its index. -/
theorem next_eq (d : Distribution α) (source : σ) :
    d.values[(d.nextIndex source).1]? = some (d.next source).1 ∧
      (d.next source).2 = (d.nextIndex source).2 :=
  ⟨d.getElem?_values (d.nextIndex_lt source), rfl⟩

/-- The values of a run are those at its indices. -/
theorem sample_related (d : Distribution α) (n : ℕ) (source : σ) :
    List.Forall₂ (fun v i => d.values[i]? = some v) (d.sample n source).1
        (d.sampleIndices n source).1 ∧
      (d.sample n source).2 = (d.sampleIndices n source).2 :=
  draws_related (fun s => d.next_eq s) n source

/-- The endless sequence of the values drawn from a source. -/
def sampleIter (d : Distribution α) (source : σ) : Stream' α :=
  Stream'.corec' d.next source

/-- At every place of a run the value is the one at the index, in the endless
sequence as well. -/
theorem sample_at (d : Distribution α) {n t : ℕ} (ht : t < n) (source : σ) :
    ∃ i v, (d.sampleIndices n source).1[t]? = some i ∧
      d.values[i]? = some v ∧ (d.sample n source).1[t]? = some v ∧
      (d.sampleIter source).get t = v := by
  have hIndices : t < (d.sampleIndices n source).1.length := by
    rwa [sampleIndices, length_draws]
  have hValues : t < (d.sample n source).1.length := by
    rwa [sample, length_draws]
  have hRelated := (d.sample_related n source).1.get hValues hIndices
  have hValue : (d.sample n source).1[t]? = some (d.sample n source).1[t] :=
    List.getElem?_eq_getElem hValues
  refine ⟨_, _, List.getElem?_eq_getElem hIndices, hRelated, hValue, ?_⟩
  apply Option.some.inj
  rw [← Stream'.getElem?_take ht, sampleIter, take_corec']
  exact hValue

/-! ## Counts -/

/-- Counting one draw adds one at its index and nothing elsewhere. -/
theorem getElem?_counted (counts : Array ℕ) (drawn i : ℕ) :
    (counts.modify drawn (· + 1))[i]? =
      counts[i]?.map (· + if drawn = i then 1 else 0) := by
  rw [Array.getElem?_modify]
  by_cases hSame : drawn = i
  · rw [if_pos hSame, if_pos hSame]
  · rw [if_neg hSame, if_neg hSame]
    simp

theorem tally_succ (d : Distribution α) (n : ℕ) (counts : Array ℕ)
    (source : σ) :
    d.tally (n + 1) counts source =
      d.tally n (counts.modify (d.nextIndex source).1 (· + 1))
        (d.nextIndex source).2 := rfl

theorem sampleIndices_succ (d : Distribution α) (n : ℕ) (source : σ) :
    d.sampleIndices (n + 1) source =
      ((d.nextIndex source).1 :: (d.sampleIndices n (d.nextIndex source).2).1,
        (d.sampleIndices n (d.nextIndex source).2).2) := rfl

/-- A tally adds to every count how often its index is drawn, and leaves the
source where the run leaves it. -/
theorem tally_spec (d : Distribution α) (n : ℕ) (counts : Array ℕ)
    (source : σ) :
    (∀ i, (d.tally n counts source).1[i]? =
      counts[i]?.map (· + (d.sampleIndices n source).1.count i)) ∧
    (d.tally n counts source).2 = (d.sampleIndices n source).2 := by
  induction n generalizing counts source with
  | zero =>
      refine ⟨fun i => ?_, rfl⟩
      show counts[i]? = counts[i]?.map (· + 0)
      simp
  | succ n ih =>
      have hRun := ih (counts.modify (d.nextIndex source).1 (· + 1))
        (d.nextIndex source).2
      rw [tally_succ, sampleIndices_succ]
      refine ⟨fun i => ?_, hRun.2⟩
      rw [hRun.1 i, getElem?_counted, Option.map_map, List.count_cons]
      congr 1
      funext k
      simp only [Function.comp_apply, beq_iff_eq]
      omega

/-- The counts of a run on a table of zeros. -/
theorem tally_zeros (d : Distribution α) (n : ℕ) (source : σ) :
    (d.tally n (Array.replicate d.size 0) source).1.toList =
      (List.range d.size).map fun i =>
        (d.sampleIndices n source).1.count i := by
  apply List.ext_getElem?
  intro i
  rw [Array.getElem?_toList, (d.tally_spec n _ source).1 i, List.getElem?_map,
    Array.getElem?_replicate]
  by_cases hi : i < d.size
  · rw [if_pos hi, List.getElem?_range hi]
    simp
  · rw [if_neg hi, List.getElem?_eq_none (by simpa using hi)]
    rfl

/-- How often each index below a bound occurs, added up. -/
theorem sum_count_range {l : List ℕ} {N : ℕ} (h : ∀ i ∈ l, i < N) :
    ((List.range N).map fun i => l.count i).sum = l.length := by
  have hRange : ∀ i ∈ (l : Multiset ℕ), i ∈ Finset.range N := by
    intro i hi
    exact Finset.mem_range.2 (h i (Multiset.mem_coe.1 hi))
  calc ((List.range N).map fun i => l.count i).sum
      = ∑ i ∈ Finset.range N, Multiset.count i (l : Multiset ℕ) := by
        simp only [Multiset.coe_count]
        rfl
    _ = l.length := Multiset.sum_count_eq_card hRange

end Distribution

/-! ## Reports -/

namespace Report

variable {α σ : Type} [ToString α] [WordSource σ]

theorem map_value_ofCounts {d : Distribution α} {counts : List ℕ}
    (h : counts.length = d.size) (n : ℕ) :
    (ofCounts d n counts).rows.map (·.value) = d.values.map toString := by
  have hEntries : (d.entries.zip counts).map Prod.fst = d.entries :=
    List.map_fst_zip (by simp [Distribution.entries, h])
  have hRows : (ofCounts d n counts).rows.map (·.value) =
      ((d.entries.zip counts).map Prod.fst).map fun e => toString e.1 := by
    rw [ofCounts, List.map_map, List.map_map]
    rfl
  rw [hRows, hEntries, ← d.map_fst_entries, List.map_map]
  rfl

theorem map_count_ofCounts {d : Distribution α} {counts : List ℕ}
    (h : counts.length = d.size) (n : ℕ) :
    (ofCounts d n counts).rows.map (·.count) = counts := by
  have hSnd : (d.entries.zip counts).map Prod.snd = counts :=
    List.map_snd_zip (by simp [Distribution.entries, h])
  rw [ofCounts, List.map_map]
  exact hSnd

/-- A report depends on the texts of the values and on the marginals. -/
theorem ofCounts_congr {d e : Distribution α}
    (hTexts : d.values.map toString = e.values.map toString)
    (hMarginals : d.marginals = e.marginals) (n : ℕ) (counts : List ℕ) :
    ofCounts d n counts = ofCounts e n counts := by
  have hRows : ∀ d : Distribution α, (ofCounts d n counts).rows =
      (((d.values.map toString).zip d.marginals).zip counts).map fun r =>
        ⟨r.1.1, expectedPercent r.1.2, observedPercent r.2 n, r.2⟩ := by
    intro d
    rw [List.zip_map_left, List.zip_map_left, List.map_map]
    rfl
  have hSame : (ofCounts d n counts).rows = (ofCounts e n counts).rows := by
    rw [hRows, hRows, hTexts, hMarginals]
  exact congrArg (Report.mk n) hSame

/-- A report counts the indices of a run, and leaves the source where the run
leaves it. -/
theorem collect_eq (d : Distribution α) (n : ℕ) (source : σ) :
    collect d n source =
      (ofCounts d n ((List.range d.size).map fun i =>
          (d.sampleIndices n source).1.count i),
        (d.sampleIndices n source).2) := by
  rw [← d.tally_zeros n source, ← (d.tally_spec n (Array.replicate d.size 0)
    source).2]
  rfl

theorem map_count_collect (d : Distribution α) (n : ℕ) (source : σ) :
    (collect d n source).1.rows.map (·.count) =
      (List.range d.size).map fun i =>
        (d.sampleIndices n source).1.count i := by
  rw [collect_eq]
  exact map_count_ofCounts (by simp) n

/-- The counts of a run that is interrupted add up to those of the whole run. -/
theorem map_count_collect_add (d : Distribution α) (n m : ℕ) (source : σ) :
    (collect d (n + m) source).1.rows.map (·.count) =
        List.zipWith (· + ·) ((collect d n source).1.rows.map (·.count))
          ((collect d m (collect d n source).2).1.rows.map (·.count)) ∧
      (collect d (n + m) source).2 =
        (collect d m (collect d n source).2).2 := by
  have hRun : d.sampleIndices (n + m) source =
      ((d.sampleIndices n source).1 ++
          (d.sampleIndices m (d.sampleIndices n source).2).1,
        (d.sampleIndices m (d.sampleIndices n source).2).2) :=
    Distribution.draws_add d.nextIndex n m source
  constructor
  · rw [map_count_collect, map_count_collect, map_count_collect,
      collect_eq d n, hRun, List.zipWith_map, List.zipWith_self]
    simp only [List.count_append]
  · rw [collect_eq, collect_eq, collect_eq, hRun]

/-- **What a report says about a run from any source.** There is a row for
every entry, in order, and its count is the number of draws of its index. The
counts add up to the number of draws, so none of them exceeds it. The source
moves on by one word a draw, or stays where it is if there is only one entry.
Draw by draw, the values of a run are those at its indices, and the endless
sequence of values begins with them. A run may be split into two. -/
theorem collect_draws (d : Distribution α) (source : σ) (n : ℕ) :
    let indices := (d.sampleIndices n source).1
    let run := collect d n source
    (run.1.samples = n ∧
      run.1.rows.map (·.value) = d.values.map toString ∧
      run.1.rows.map (·.count) =
        (List.range d.size).map fun i => indices.count i) ∧
    ((run.1.rows.map (·.count)).sum = n ∧ ∀ row ∈ run.1.rows, row.count ≤ n) ∧
    run.2 = WordSource.skip (if d.size = 1 then 0 else n) source ∧
    (∀ word position, (collect d n (WordStream.mk word position)).2 =
      ⟨word, position + if d.size = 1 then 0 else n⟩) ∧
    (∀ t < n, ∃ i v, indices[t]? = some i ∧ d.values[i]? = some v ∧
      (d.sample n source).1[t]? = some v ∧ (d.sampleIter source).get t = v) ∧
    (∀ m,
      let more := collect d m run.2
      let whole := collect d (n + m) source
      whole.1.rows.map (·.count) = List.zipWith (· + ·)
          (run.1.rows.map (·.count)) (more.1.rows.map (·.count)) ∧
        whole.2 = more.2) := by
  intro indices run
  have hCounts := map_count_collect d n source
  have hSum : (run.1.rows.map (·.count)).sum = n := by
    rw [hCounts, Distribution.sum_count_range
      fun i hi => d.lt_of_mem_sampleIndices hi]
    exact Distribution.length_draws _ n source
  have hWords : n * d.wordsPerDraw = if d.size = 1 then 0 else n := by
    unfold Distribution.wordsPerDraw
    split <;> simp
  have hRest : ∀ (τ : Type) [WordSource τ] (s : τ),
      (collect d n s).2 = WordSource.skip (if d.size = 1 then 0 else n) s := by
    intro τ _ s
    rw [collect_eq, d.snd_sampleIndices, hWords]
  refine ⟨⟨rfl, ?_, hCounts⟩, ⟨hSum, ?_⟩, hRest σ source, ?_, ?_, ?_⟩
  · rw [show run = _ from collect_eq d n source]
    exact map_value_ofCounts (by simp) n
  · intro row hRow
    rw [← hSum]
    exact List.single_le_sum (fun _ _ => Nat.zero_le _) _
      (List.mem_map_of_mem hRow)
  · intro word position
    rw [hRest, WordSource.skip_wordStream]
  · intro t ht
    exact d.sample_at ht source
  · intro m
    exact map_count_collect_add d n m source

end Report

end ValueMix
