import Mathlib
import ValueMix.Proofs.Equality

/-!
# What the shares of entries determine

Weights matter in proportion only. A common factor cancels in every share, and
no check looks at the size of a weight. The shares that come out determine the
table: built from its own values and marginals, as fixed probabilities or as
weights, a distribution is what it was.

## Main results

* `marginals_scaled` — a common factor of all weights cancels.
* `ofEntries_scaled` — building from weights with a common factor.
* `Tabulated.ofMarginals_entries` — a table is laid out again from its entries.
* `ofEntries_entries` — building from the entries of a distribution.
-/

namespace ValueMix

variable {α : Type}

/-! ## A common factor of all weights -/

/-- A share with its weight, if it has one, multiplied by `k`. -/
def Share.scaled (k : ℚ) : Share → Share
  | .fixed p => .fixed p
  | .weighted w => .weighted (k * w)

/-- An entry with its weight, if it has one, multiplied by `k`. -/
def Entry.scaled (k : ℚ) (e : Entry α) : Entry α := ⟨e.value, e.share.scaled k⟩

/-- What is reported of a multiplied weight. -/
def Error.scaled (k : ℚ) : Error → Error
  | .invalidWeight w => .invalidWeight (k * w)
  | err => err

/-- The same entries are refused. -/
theorem Entry.fault?_scaled {k : ℚ} (hk : 0 < k) (e : Entry α) :
    (e.scaled k).fault? = e.fault?.map (Error.scaled k) := by
  obtain ⟨v, share⟩ := e
  cases share with
  | fixed p =>
      simp only [Entry.scaled, Share.scaled, Entry.fault?]
      split <;> rfl
  | weighted w =>
      simp only [Entry.scaled, Share.scaled, Entry.fault?,
        mul_pos_iff_of_pos_left hk]
      split <;> rfl

theorem Entry.fixedPart_scaled (k : ℚ) (e : Entry α) :
    (e.scaled k).fixedPart = e.fixedPart := by
  obtain ⟨v, share⟩ := e
  cases share <;> rfl

theorem Entry.weightedPart_scaled (k : ℚ) (e : Entry α) :
    (e.scaled k).weightedPart = e.weightedPart.map fun g => (g.1, k * g.2) := by
  obtain ⟨v, share⟩ := e
  cases share <;> rfl

namespace Builder

/-- A builder with all weights multiplied by `k`. -/
def scaled (k : ℚ) (b : Builder α) : Builder α :=
  ⟨b.fixed, b.weighted.map fun g => (g.1, k * g.2)⟩

theorem holding_scaled (k : ℚ) (es : List (Entry α)) :
    holding (es.map (Entry.scaled k)) = (holding es).scaled k := by
  rw [holding, holding, scaled, List.filterMap_map, List.filterMap_map,
    List.map_filterMap]
  congr 1
  · exact congrArg (List.filterMap · es) (funext (Entry.fixedPart_scaled k))
  · exact congrArg (List.filterMap · es) (funext (Entry.weightedPart_scaled k))

theorem totalWeight_scaled (k : ℚ) (b : Builder α) :
    (b.scaled k).totalWeight = k * b.totalWeight := by
  rw [totalWeight_eq_sum, totalWeight_eq_sum, ← List.sum_map_mul_left, scaled,
    List.map_map]
  rfl

theorem alike_scaled (k : ℚ) (b : Builder α) : Alike (b.scaled k) b where
  fixedTotal := rfl
  fixed := rfl
  weighted := List.length_map _

/-- A common factor of all weights cancels. -/
theorem marginals_scaled {k : ℚ} (hk : k ≠ 0) (b : Builder α) :
    (b.scaled k).marginals = b.marginals := by
  have hShare : ∀ g : α × ℚ,
      (1 - b.fixedTotal) * (k * g.2) / (k * b.totalWeight) =
        (1 - b.fixedTotal) * g.2 / b.totalWeight := by
    intro g
    rw [mul_left_comm, mul_div_mul_left _ _ hk]
  rw [marginals, marginals, totalWeight_scaled]
  show b.fixed ++ (b.weighted.map _).map _ = _
  rw [List.map_map]
  congr 1
  apply List.map_congr_left
  intro g _
  exact congrArg (Prod.mk g.1) (hShare g)

theorem create_scaled {k : ℚ} (hk : k ≠ 0) (b : Builder α) :
    (b.scaled k).create = b.create :=
  (alike_scaled k b).create_eq (marginals_scaled hk b)

end Builder

namespace Distribution

/-- **Weights are relative.** Multiplying all weights by a positive factor
changes nothing in what is built or reported, except that the weight reported of
an entry is the multiplied one. -/
theorem ofEntries_scaled {k : ℚ} (hk : 0 < k) (es : List (Entry α)) :
    ofEntries (es.map (Entry.scaled k)) =
      (ofEntries es).mapError (Error.scaled k) := by
  have hFault : (es.map (Entry.scaled k)).findSome? Entry.fault? =
      (es.findSome? Entry.fault?).map (Error.scaled k) := by
    rw [List.findSome?_map, List.map_findSome?]
    exact congrArg (List.findSome? · es) (funext (Entry.fault?_scaled hk))
  rw [ofEntries_eq, ofEntries_eq, hFault, Builder.holding_scaled,
    Builder.create_scaled hk.ne']
  cases es.findSome? Entry.fault? with
  | some err => rfl
  | none =>
      show (Builder.holding es).create = _
      cases hCreate : (Builder.holding es).create with
      | ok d => rfl
      | error err =>
          have hCause := (Builder.create_eq_error_iff _ err).1 hCreate
          cases err with
          | invalidWeight w => exact hCause.elim
          | _ => rfl

/-- Weights of three and six are weights of one and two. -/
theorem ofEntries_scaled_thirds :
    (0 : ℚ) < 1 / 3 ∧ ∃ d : Distribution String,
      ofEntries [⟨"a", .weighted 3⟩, ⟨"b", .fixed (1 / 2)⟩,
        ⟨"c", .weighted 6⟩] = .ok d ∧
      ofEntries [⟨"a", .weighted 1⟩, ⟨"b", .fixed (1 / 2)⟩,
        ⟨"c", .weighted 2⟩] = .ok d := by
  have hBuilt : (ofEntries [⟨"a", .weighted 3⟩, ⟨"b", .fixed (1 / 2)⟩,
      ⟨"c", .weighted 6⟩]).toOption.map Distribution.values =
        some ["b", "a", "c"] := by decide +kernel
  have hThird : (0 : ℚ) < 1 / 3 := by norm_num
  have hEntries : ([⟨"a", .weighted 3⟩, ⟨"b", .fixed (1 / 2)⟩,
      ⟨"c", .weighted 6⟩] : List (Entry String)).map (Entry.scaled (1 / 3)) =
        [⟨"a", .weighted 1⟩, ⟨"b", .fixed (1 / 2)⟩, ⟨"c", .weighted 2⟩] := by
    decide +kernel
  obtain ⟨d, hd, -⟩ := exists_ok_of_toOption hBuilt
  refine ⟨hThird, d, hd, ?_⟩
  rw [← hEntries, ofEntries_scaled hThird, hd]
  rfl

/-! ## Building again -/

theorem snd_mem_marginals {d : Distribution α} {g : α × ℚ}
    (hg : g ∈ d.entries) :
    g.2 ∈ d.marginals := by
  rw [← map_snd_entries]
  exact List.mem_map_of_mem hg

theorem entries_ne_nil (d : Distribution α) : d.entries ≠ [] := by
  intro hNil
  have hLength := congrArg List.length (d.map_fst_entries)
  rw [hNil, length_values] at hLength
  exact d.cells_pos.ne hLength

namespace Tabulated

variable {d : Distribution α} (h : d.Tabulated)

include h

theorem marginals_le_one : ∀ p ∈ d.marginals, p ≤ 1 := by
  intro p hp
  rw [← h.sum_marginals]
  exact List.single_le_sum (fun q hq => (h.marginals_pos q hq).le) p hp

/-- A table is laid out again from its entries. -/
theorem ofMarginals_entries : ofMarginals d.entries d.entries_ne_nil = d := by
  have hSum : (d.entries.map Prod.snd).sum = 1 := by
    rw [map_snd_entries, h.sum_marginals]
  have hPos : ∀ p ∈ d.entries.map Prod.snd, 0 < p := by
    rw [map_snd_entries]
    exact h.marginals_pos
  apply Tabulated.ext (tabulated_ofMarginals _ hSum hPos) h
  · rw [values_ofMarginals, map_fst_entries]
  · rw [cumulatives_ofMarginals _ hSum, map_snd_entries, marginals,
      runningSums_steps]

/-- What a builder with the marginals of the table lays out is the table. -/
theorem create_of_marginals {b : Builder α} (hFits : b.Fits)
    (hMarginals : b.marginals = d.entries) : b.create = .ok d := by
  rw [Builder.create_of_fits hFits]
  simp only [hMarginals, h.ofMarginals_entries]

end Tabulated

end Distribution

/-! ### As fixed probabilities and as weights -/

/-- The entry that claims a probability for a value. -/
def Entry.withProbability (g : α × ℚ) : Entry α := ⟨g.1, .fixed g.2⟩

/-- The entry that claims a weight for a value. -/
def Entry.withWeight (g : α × ℚ) : Entry α := ⟨g.1, .weighted g.2⟩

namespace Builder

theorem holding_withProbability (gs : List (α × ℚ)) :
    holding (gs.map Entry.withProbability) = ⟨gs, []⟩ := by
  induction gs with
  | nil => rfl
  | cons g rest ih =>
      show (⟨g :: (holding (rest.map Entry.withProbability)).fixed,
        (holding (rest.map Entry.withProbability)).weighted⟩ : Builder α) = _
      rw [ih]

theorem holding_withWeight (gs : List (α × ℚ)) :
    holding (gs.map Entry.withWeight) = ⟨[], gs⟩ := by
  induction gs with
  | nil => rfl
  | cons g rest ih =>
      show (⟨(holding (rest.map Entry.withWeight)).fixed,
        g :: (holding (rest.map Entry.withWeight)).weighted⟩ : Builder α) = _
      rw [ih]

/-- Weights that add up to one are the shares of a builder without fixed
entries. -/
theorem marginals_of_weights {gs : List (α × ℚ)}
    (hSum : (gs.map Prod.snd).sum = 1) :
    (⟨[], gs⟩ : Builder α).marginals = gs := by
  have hTotal : (⟨[], gs⟩ : Builder α).totalWeight = 1 := by
    rw [totalWeight_eq_sum, hSum]
  have hShare : ∀ g : α × ℚ, (g.1, (1 - 0) * g.2 / 1) = g := by
    intro g
    rw [sub_zero, one_mul, div_one]
  rw [marginals, hTotal]
  show gs.map (fun g => (g.1, (1 - 0) * g.2 / 1)) = gs
  rw [funext hShare, List.map_id']

end Builder

namespace Distribution

namespace Tabulated

variable {d : Distribution α} (h : d.Tabulated)

include h

theorem ofEntries_withProbability :
    ofEntries (d.entries.map Entry.withProbability) = .ok d := by
  have hValid : ∀ e ∈ d.entries.map Entry.withProbability, e.fault? = none := by
    intro e he
    obtain ⟨g, hg, rfl⟩ := List.mem_map.1 he
    have hMarginal := snd_mem_marginals hg
    exact if_pos ⟨h.marginals_pos _ hMarginal, h.marginals_le_one _ hMarginal⟩
  have hFits : (⟨d.entries, []⟩ : Builder α).Fits := by
    refine Or.inl ⟨?_, rfl⟩
    rw [Builder.fixedTotal_eq_sum, map_snd_entries, h.sum_marginals]
  rw [ofEntries_of_valid hValid, Builder.holding_withProbability]
  exact h.create_of_marginals hFits (List.append_nil _)

theorem ofEntries_withWeight :
    ofEntries (d.entries.map Entry.withWeight) = .ok d := by
  have hValid : ∀ e ∈ d.entries.map Entry.withWeight, e.fault? = none := by
    intro e he
    obtain ⟨g, hg, rfl⟩ := List.mem_map.1 he
    exact if_pos (h.marginals_pos _ (snd_mem_marginals hg))
  have hFits : (⟨[], d.entries⟩ : Builder α).Fits :=
    Or.inr ⟨zero_lt_one, d.entries_ne_nil⟩
  rw [ofEntries_of_valid hValid, Builder.holding_withWeight]
  apply h.create_of_marginals hFits
  apply Builder.marginals_of_weights
  rw [map_snd_entries, h.sum_marginals]

end Tabulated

/-- **Marginals determine the distribution.** In every distribution that can be
built the marginals are probabilities that add up to one. Built again from its
values with their marginals, all as fixed probabilities or all as weights, it is
the same distribution. -/
theorem ofEntries_entries {d : Distribution α} (hd : Reachable d) :
    (∀ p ∈ d.marginals, 0 < p ∧ p ≤ 1) ∧ d.marginals.sum = 1 ∧
    ofEntries (d.entries.map Entry.withProbability) = .ok d ∧
    ofEntries (d.entries.map Entry.withWeight) = .ok d := by
  have h := hd.tabulated
  refine ⟨?_, h.sum_marginals, h.ofEntries_withProbability,
    h.ofEntries_withWeight⟩
  intro p hp
  exact ⟨h.marginals_pos p hp, h.marginals_le_one p hp⟩

/-- A fixed quarter and weights of two and one are a quarter, a half and a
quarter. -/
theorem ofEntries_entries_quarters :
    ∃ d : Distribution String,
      ofEntries [⟨"a", .fixed (1 / 4)⟩, ⟨"b", .weighted 2⟩,
        ⟨"c", .weighted 1⟩] = .ok d ∧
      ofEntries [⟨"a", .fixed (1 / 4)⟩, ⟨"b", .fixed (1 / 2)⟩,
        ⟨"c", .fixed (1 / 4)⟩] = .ok d ∧
      ofEntries [⟨"a", .weighted (1 / 4)⟩, ⟨"b", .weighted (1 / 2)⟩,
        ⟨"c", .weighted (1 / 4)⟩] = .ok d := by
  have hBuilt : (ofEntries [⟨"a", .fixed (1 / 4)⟩, ⟨"b", .weighted 2⟩,
      ⟨"c", .weighted 1⟩]).toOption.map Distribution.entries =
        some [("a", 1 / 4), ("b", 1 / 2), ("c", 1 / 4)] := by decide +kernel
  obtain ⟨d, hd, hEntries⟩ := exists_ok_of_toOption hBuilt
  have hAgain := (ofEntries_entries (Reachable.ofEntries _ hd)).2.2
  rw [hEntries] at hAgain
  exact ⟨d, hd, hAgain⟩

end Distribution

end ValueMix
