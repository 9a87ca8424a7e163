import Mathlib
import ValueMix.Proofs.Equality

/-!
# The map from values to cumulative probabilities

A map is filled by recording the end of every cell under the value of the
cell, in the order of the table. A value that is recorded again keeps its key
and gets the later end. The ends increase, so what a value has at last is the
greatest of them, and no end is found under two values.

Values are compared with an equality of their own, which need not be the
identity; two values are different if they do not compare equal.

## Main results

* `lookup_record` — recording changes what is found under one value only.
* `lookup_recorded` — behind a run of recordings the last one of a value is
  found.
* `lookup_reverse_eq_some_iff` — of increasing numbers the last is the greatest.
* `probabilityMap_exact` — what the map of a distribution holds, and when it
  determines values and cumulative probabilities.
-/

namespace ValueMix.Distribution

variable {α : Type}

/-! ## The ends of cells -/

/-- The values with the ends of their cells. -/
def ends (d : Distribution α) : List (α × ℚ) := d.values.zip d.cumulatives

theorem map_fst_ends (d : Distribution α) : d.ends.map Prod.fst = d.values :=
  List.map_fst_zip (by rw [length_values, length_cumulatives])

theorem map_snd_ends (d : Distribution α) :
    d.ends.map Prod.snd = d.cumulatives :=
  List.map_snd_zip (by rw [length_values, length_cumulatives])

theorem ends_eq_map (d : Distribution α) :
    d.ends = d.cells.toList.map fun c => (c.value, c.upper) :=
  List.zip_map'

namespace Tabulated

variable {d : Distribution α} (hd : d.Tabulated)

include hd

theorem increasing_ends : (d.ends.map Prod.snd).Pairwise (· < ·) := by
  rw [map_snd_ends]
  exact (List.pairwise_cons.1 hd.increasing).2

/-- No two cells end at the same point. -/
theorem eq_of_mem_ends {e f : α × ℚ} (he : e ∈ d.ends) (hf : f ∈ d.ends)
    (h : e.2 = f.2) : e = f :=
  List.inj_on_of_nodup_map (hd.increasing_ends.imp ne_of_lt) he hf h

theorem le_one_of_mem_ends {e : α × ℚ} (he : e ∈ d.ends) : e.2 ≤ 1 := by
  apply hd.cumulative_le_one
  rw [← map_snd_ends]
  exact List.mem_map_of_mem he

/-- The last cell ends at one. -/
theorem getLast?_ends : ∃ v, d.values.getLast? = some v ∧ (v, 1) ∈ d.ends := by
  have hLast := hd.last
  rw [← map_snd_ends, List.getLast?_map, Option.map_eq_some_iff] at hLast
  obtain ⟨⟨v, p⟩, hEnd, rfl⟩ := hLast
  refine ⟨v, ?_, List.mem_of_getLast? hEnd⟩
  rw [← map_fst_ends, List.getLast?_map, hEnd]
  rfl

end Tabulated

/-- The content of a map in the order of its probabilities. -/
def byProbability (m : List (α × ℚ)) : List (α × ℚ) :=
  m.mergeSort fun e f => decide (e.2 ≤ f.2)

theorem pairwise_byProbability (m : List (α × ℚ)) :
    (byProbability m).Pairwise fun e f => e.2 ≤ f.2 := by
  have hTrans : ∀ e f g : α × ℚ, decide (e.2 ≤ f.2) = true →
      decide (f.2 ≤ g.2) = true → decide (e.2 ≤ g.2) = true := by
    intro e f g hef hfg
    rw [decide_eq_true_eq] at hef hfg ⊢
    exact hef.trans hfg
  have hTotal : ∀ e f : α × ℚ,
      (decide (e.2 ≤ f.2) || decide (f.2 ≤ e.2)) = true := by
    intro e f
    rw [Bool.or_eq_true, decide_eq_true_eq, decide_eq_true_eq]
    exact le_total e.2 f.2
  exact (List.pairwise_mergeSort hTrans hTotal m).imp of_decide_eq_true

/-- Sorting brings the ends of cells back into the order of the table. -/
theorem Tabulated.byProbability_eq_ends {d : Distribution α} (hd : d.Tabulated)
    {m : List (α × ℚ)} (hm : m.Perm d.ends) : byProbability m = d.ends := by
  have hEnds : d.ends.Pairwise fun e f => e.2 ≤ f.2 :=
    (List.pairwise_map.1 hd.increasing_ends).imp le_of_lt
  have hPerm : (byProbability m).Perm d.ends :=
    (List.mergeSort_perm m _).trans hm
  refine List.Perm.eq_of_pairwise ?_ (pairwise_byProbability m) hEnds hPerm
  intro e f he hf hef hfe
  exact hd.eq_of_mem_ends (hPerm.mem_iff.1 he) hf (le_antisymm hef hfe)

variable [BEq α]

/-- Values no two of which compare equal. -/
def Different (vs : List α) : Prop := vs.Pairwise fun v w => (v == w) = false

/-! ## Recording once -/

/-- A new value comes behind the others. -/
theorem record_of_new {v : α} {m : List (α × ℚ)} (p : ℚ)
    (h : ∀ w ∈ m.map Prod.fst, (w == v) = false) :
    record v p m = m ++ [(v, p)] := by
  induction m with
  | nil => rfl
  | cons e rest ih =>
      rw [List.map_cons, List.forall_mem_cons] at h
      rw [record, if_neg (Bool.eq_false_iff.1 h.1), ih h.2, List.cons_append]

/-- A known value keeps its key and its place. -/
theorem map_fst_record_of_known {v : α} {m : List (α × ℚ)} (p : ℚ)
    (h : ∃ w ∈ m.map Prod.fst, (w == v) = true) :
    (record v p m).map Prod.fst = m.map Prod.fst := by
  induction m with
  | nil => simp at h
  | cons e rest ih =>
      rw [record]
      by_cases hKey : (e.1 == v) = true
      · rw [if_pos hKey]
        rfl
      · rw [List.map_cons, List.exists_mem_cons_iff] at h
        rw [if_neg hKey, List.map_cons, ih (h.resolve_left hKey), List.map_cons]

/-- What recording does to the keys: a new value is added behind them, and a
known one changes nothing. -/
theorem map_fst_record (v : α) (p : ℚ) (m : List (α × ℚ)) :
    ((∀ w ∈ m.map Prod.fst, (w == v) = false) ∧
        (record v p m).map Prod.fst = m.map Prod.fst ++ [v]) ∨
      (record v p m).map Prod.fst = m.map Prod.fst := by
  by_cases hKnown : ∃ w ∈ m.map Prod.fst, (w == v) = true
  · exact Or.inr (map_fst_record_of_known p hKnown)
  · have hNew : ∀ w ∈ m.map Prod.fst, (w == v) = false := fun w hw =>
      Bool.eq_false_iff.2 fun hEqual => hKnown ⟨w, hw, hEqual⟩
    refine Or.inl ⟨hNew, ?_⟩
    rw [record_of_new p hNew, List.map_append]
    rfl

/-- Recording keeps the keys different. -/
theorem different_record {m : List (α × ℚ)} (v : α) (p : ℚ)
    (h : Different (m.map Prod.fst)) :
    Different ((record v p m).map Prod.fst) := by
  rcases map_fst_record v p m with ⟨hNew, hKeys⟩ | hKeys
  · rw [hKeys]
    refine List.pairwise_append.2 ⟨h, List.pairwise_singleton _ _, ?_⟩
    intro w hw u hu
    rw [List.mem_singleton.1 hu]
    exact hNew w hw
  · rwa [hKeys]

theorem mem_of_mem_record {m : List (α × ℚ)} {v w : α} {p : ℚ}
    (h : w ∈ (record v p m).map Prod.fst) : w ∈ m.map Prod.fst ∨ w = v := by
  rcases map_fst_record v p m with ⟨-, hKeys⟩ | hKeys
  · rw [hKeys, List.mem_append] at h
    exact h.imp_right List.mem_singleton.1
  · rw [hKeys] at h
    exact Or.inl h

/-- Recording changes what is found under one value only. -/
theorem lookup_record [EquivBEq α] (v w : α) (p : ℚ) (m : List (α × ℚ)) :
    (record v p m).lookup w = if w == v then some p else m.lookup w := by
  induction m with
  | nil =>
      rw [record, List.lookup_cons, List.lookup_nil]
      cases w == v <;> rfl
  | cons e rest ih =>
      obtain ⟨key, q⟩ := e
      rw [record]
      by_cases hKey : (key == v) = true
      · rw [if_pos hKey, List.lookup_cons, List.lookup_cons,
          BEq.congr_right hKey]
        cases w == v <;> rfl
      · rw [if_neg hKey, List.lookup_cons, List.lookup_cons, ih]
        cases hFound : w == key with
        | false => rfl
        | true =>
            -- whoever finds this key does not compare equal to the new value
            rw [BEq.congr_left hFound, Bool.eq_false_iff.2 hKey]
            rfl

/-! ## Recording a list -/

/-- The map behind recording some values with their numbers, in order. -/
def recorded (es : List (α × ℚ)) : List (α × ℚ) :=
  es.foldl (fun m e => record e.1 e.2 m) []

theorem recorded_concat (es : List (α × ℚ)) (e : α × ℚ) :
    recorded (es ++ [e]) = record e.1 e.2 (recorded es) := by
  rw [recorded, List.foldl_concat, ← recorded]

/-- What is found under a value is what was recorded for it last. -/
theorem lookup_recorded [EquivBEq α] (es : List (α × ℚ)) (v : α) :
    (recorded es).lookup v = es.reverse.lookup v := by
  induction es using List.reverseRecOn with
  | nil => rfl
  | append_singleton es e ih =>
      rw [recorded_concat, lookup_record, ih, List.reverse_concat,
        List.lookup_cons]
      cases v == e.1 <;> rfl

/-- The keys of a map are different. -/
theorem different_recorded (es : List (α × ℚ)) :
    Different ((recorded es).map Prod.fst) := by
  induction es using List.reverseRecOn with
  | nil => exact .nil
  | append_singleton es e ih =>
      rw [recorded_concat]
      exact different_record e.1 e.2 ih

/-- The keys of a map are values that were recorded. -/
theorem mem_of_mem_recorded {es : List (α × ℚ)} {v : α}
    (h : v ∈ (recorded es).map Prod.fst) : v ∈ es.map Prod.fst := by
  induction es using List.reverseRecOn with
  | nil => exact h
  | append_singleton es e ih =>
      rw [recorded_concat] at h
      rw [List.map_append, List.mem_append]
      rcases mem_of_mem_record h with hOld | rfl
      · exact Or.inl (ih hOld)
      · exact Or.inr List.mem_cons_self

/-- Different values are recorded side by side. -/
theorem recorded_of_different {es : List (α × ℚ)}
    (h : Different (es.map Prod.fst)) :
    recorded es = es := by
  induction es using List.reverseRecOn with
  | nil => rfl
  | append_singleton es e ih =>
      rw [List.map_append, Different, List.pairwise_append] at h
      obtain ⟨hFront, -, hLast⟩ := h
      rw [recorded_concat, ih hFront]
      exact record_of_new e.2 fun w hw => hLast w hw e.1 List.mem_cons_self

/-- The cumulative probabilities that stand with a value. -/
def cumulativesOf (es : List (α × ℚ)) (v : α) : Set ℚ :=
  {p | ∃ e ∈ es, (v == e.1) = true ∧ e.2 = p}

/-- The last of increasing numbers that stand with a value is the greatest of
them. -/
theorem lookup_reverse_eq_some_iff {es : List (α × ℚ)}
    (h : (es.map Prod.snd).Pairwise (· < ·)) {v : α} {p : ℚ} :
    es.reverse.lookup v = some p ↔ IsGreatest (cumulativesOf es v) p := by
  induction es using List.reverseRecOn with
  | nil => simp [cumulativesOf, IsGreatest]
  | append_singleton es e ih =>
      rw [List.map_append, List.pairwise_append] at h
      obtain ⟨hFront, -, hLast⟩ := h
      rw [List.reverse_concat, List.lookup_cons]
      cases hFound : v == e.1 with
      | true =>
          have hGreatest : IsGreatest (cumulativesOf (es ++ [e]) v) e.2 := by
            refine ⟨⟨e, by simp, hFound, rfl⟩, ?_⟩
            rintro p ⟨f, hf, -, rfl⟩
            rcases List.mem_append.1 hf with hf | hf
            · exact (hLast f.2 (List.mem_map_of_mem hf) e.2 (by simp)).le
            · rw [List.mem_singleton.1 hf]
          constructor
          · intro hSome
            rwa [← Option.some.inj hSome]
          · intro hOther
            exact congrArg some (hGreatest.unique hOther)
      | false =>
          have hSame : cumulativesOf (es ++ [e]) v = cumulativesOf es v := by
            simp [cumulativesOf, hFound, or_and_right, exists_or]
          rw [hSame]
          exact ih hFront

/-! ## The map of a distribution -/

theorem probabilityMap_eq (d : Distribution α) :
    d.probabilityMap = recorded d.ends := by
  rw [probabilityMap, recorded, ends_eq_map, List.foldl_map]

namespace Tabulated

variable [EquivBEq α] {d : Distribution α} (hd : d.Tabulated)

include hd

theorem lookup_probabilityMap_iff {v : α} {p : ℚ} :
    d.probabilityMap.lookup v = some p ↔
      IsGreatest (cumulativesOf d.ends v) p := by
  rw [probabilityMap_eq, lookup_recorded,
    lookup_reverse_eq_some_iff hd.increasing_ends]

/-- Different values are mapped to different ends. -/
theorem beq_of_lookup_eq {v w : α} {p : ℚ}
    (hv : d.probabilityMap.lookup v = some p)
    (hw : d.probabilityMap.lookup w = some p) : (v == w) = true := by
  obtain ⟨⟨e, he, hve, hep⟩, -⟩ := hd.lookup_probabilityMap_iff.1 hv
  obtain ⟨⟨f, hf, hwf, hfp⟩, -⟩ := hd.lookup_probabilityMap_iff.1 hw
  rw [← hd.eq_of_mem_ends he hf (hep.trans hfp.symm)] at hwf
  exact BEq.trans hve (BEq.symm hwf)

theorem le_one_of_lookup {v : α} {p : ℚ}
    (h : d.probabilityMap.lookup v = some p) :
    p ≤ 1 := by
  obtain ⟨⟨e, he, -, rfl⟩, -⟩ := hd.lookup_probabilityMap_iff.1 h
  exact hd.le_one_of_mem_ends he

/-- The last value is mapped to one. -/
theorem lookup_last {v : α} (h : (v, 1) ∈ d.ends) :
    d.probabilityMap.lookup v = some 1 := by
  rw [hd.lookup_probabilityMap_iff]
  refine ⟨⟨_, h, BEq.rfl, rfl⟩, ?_⟩
  rintro p ⟨e, he, -, rfl⟩
  exact hd.le_one_of_mem_ends he

end Tabulated

/-- **The map from values to cumulative probabilities.** For a distribution
that can be built, its keys are the values, each of them once. Under a value
the end of its last cell is found, which is the greatest of its ends. So the
last value is mapped to one and every other value to less, and different values
are mapped to different numbers. If no value is repeated, sorting the content
of the map by probability, however it is listed, yields the values and the
cumulative probabilities. -/
theorem probabilityMap_exact [EquivBEq α] {d : Distribution α}
    (hd : d.Reachable) :
    (Different (d.probabilityMap.map Prod.fst) ∧
      (∀ v ∈ d.probabilityMap.map Prod.fst, v ∈ d.values) ∧
      ∀ v, (d.probabilityMap.lookup v).isSome = d.values.contains v) ∧
    (∀ v p, d.probabilityMap.lookup v = some p ↔
      IsGreatest (cumulativesOf (d.values.zip d.cumulatives) v) p) ∧
    (∀ v, d.probabilityMap.lookup v =
      (d.values.zip d.cumulatives).reverse.lookup v) ∧
    (∃ last, d.values.getLast? = some last ∧
      d.probabilityMap.lookup last = some 1 ∧
      ∀ v p, d.probabilityMap.lookup v = some p → (v == last) = false → p < 1) ∧
    (∀ v w p, d.probabilityMap.lookup v = some p →
      d.probabilityMap.lookup w = some p → (v == w) = true) ∧
    (Different d.values → ∀ m : List (α × ℚ), m.Perm d.probabilityMap →
      (byProbability m).map Prod.fst = d.values ∧
      (byProbability m).map Prod.snd = d.cumulatives) := by
  have hTable := hd.tabulated
  have hLookup : ∀ v, d.probabilityMap.lookup v = d.ends.reverse.lookup v := by
    intro v
    rw [probabilityMap_eq, lookup_recorded]
  refine ⟨⟨?_, ?_, ?_⟩, fun v p => hTable.lookup_probabilityMap_iff, hLookup,
    ?_, fun v w p => hTable.beq_of_lookup_eq, ?_⟩
  · rw [probabilityMap_eq]
    exact different_recorded d.ends
  · intro v hv
    rw [probabilityMap_eq] at hv
    rw [← map_fst_ends]
    exact mem_of_mem_recorded hv
  · intro v
    rw [hLookup, Bool.eq_iff_iff, List.lookup_isSome_iff, ← map_fst_ends,
      List.contains_iff_exists_mem_beq]
    simp
  · obtain ⟨last, hLast, hEnd⟩ := hTable.getLast?_ends
    have hOne := hTable.lookup_last hEnd
    refine ⟨last, hLast, hOne, fun v p hv hOther => ?_⟩
    refine lt_of_le_of_ne (hTable.le_one_of_lookup hv) ?_
    rintro rfl
    rw [hTable.beq_of_lookup_eq hv hOne] at hOther
    exact Bool.noConfusion hOther
  · intro hDifferent m hm
    have hMap : d.probabilityMap = d.ends := by
      rw [probabilityMap_eq, recorded_of_different (by rwa [map_fst_ends])]
    rw [hTable.byProbability_eq_ends (hMap ▸ hm)]
    exact ⟨d.map_fst_ends, d.map_snd_ends⟩

/-- `low` is repeated in the first distribution, where its last cell counts. The
second one is read off a listing that begins with its last value. -/
theorem probabilityMap_exact_repeated :
    ∃ d e : Distribution String,
      ofEntries [⟨"low", .fixed (1 / 4)⟩, ⟨"high", .fixed (1 / 4)⟩,
        ⟨"low", .weighted 3⟩] = .ok d ∧
      ofEntries [⟨"low", .fixed (1 / 2)⟩, ⟨"high", .weighted 3⟩] = .ok e ∧
      d.values.zip d.cumulatives =
        [("low", 1 / 4), ("high", 1 / 2), ("low", 1)] ∧
      d.probabilityMap = [("low", 1), ("high", 1 / 2)] ∧
      IsGreatest (cumulativesOf (d.values.zip d.cumulatives) "low") 1 ∧
      (byProbability [("high", 1), ("low", 1 / 2)]).map Prod.fst = e.values ∧
      (byProbability [("high", 1), ("low", 1 / 2)]).map Prod.snd =
        e.cumulatives := by
  have hRepeated : (ofEntries
      [⟨"low", .fixed (1 / 4)⟩, ⟨"high", .fixed (1 / 4)⟩,
        ⟨"low", .weighted 3⟩]).toOption.map
        (fun d => (d.values.zip d.cumulatives, d.probabilityMap)) =
      some ([("low", 1 / 4), ("high", 1 / 2), ("low", 1)],
        [("low", 1), ("high", 1 / 2)]) := by decide +kernel
  have hHalves : (ofEntries
      [⟨"low", .fixed (1 / 2)⟩, ⟨"high", .weighted 3⟩]).toOption.map
      (fun e => (e.values, e.probabilityMap)) =
        some (["low", "high"], [("low", 1 / 2), ("high", 1)]) := by
    decide +kernel
  obtain ⟨d, hd, hSeen⟩ := exists_ok_of_toOption hRepeated
  obtain ⟨e, he, hSeen'⟩ := exists_ok_of_toOption hHalves
  rw [Prod.mk.injEq] at hSeen hSeen'
  have hGreatest :=
    (probabilityMap_exact (Reachable.ofEntries _ hd)).2.1 "low" 1
  have hSorted := (probabilityMap_exact (Reachable.ofEntries _ he)).2.2.2.2.2
  have hDifferent : Different e.values := by
    rw [hSeen'.1, Different]
    decide
  have hListing : [("high", 1), ("low", 1 / 2)].Perm e.probabilityMap := by
    rw [hSeen'.2]
    exact .swap _ _ []
  rw [hSeen.2] at hGreatest
  exact ⟨d, e, hd, he, hSeen.1, hSeen.2, hGreatest.1 (by decide),
    hSorted hDifferent _ hListing⟩

end ValueMix.Distribution
