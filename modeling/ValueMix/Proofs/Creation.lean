import Mathlib
import ValueMix.Proofs.Building
import ValueMix.Spec.Codec

/-!
# What building yields

`Builder.create` fails in four ways, in a fixed order, and otherwise lays
out a table whose cumulative probabilities are the running sums of the
claimed marginals.

## Main results

* `create_eq_error_iff`, `create_eq_ok_iff` — when `create` fails, and how, and
  what it yields otherwise.
* `create_session` — the outcome of `create` behind any sequence of calls.
* `Reachable.tabulated` — the table of every distribution that can be built
  is in order.
-/

namespace ValueMix

variable {α : Type}

namespace Builder

/-- When `create` fails, and what it reports. -/
theorem create_eq_error_iff (b : Builder α) (e : Error) :
    b.create = .error e ↔ b.CreateFault e := by
  have hTotalNil : b.fixed = [] → b.fixedTotal = 0 := by
    intro h
    simp [fixedTotal, h]
  have hFixedOfPos : 0 < b.fixedTotal → b.fixed ≠ [] := fun hPos hNil =>
    hPos.ne' (hTotalNil hNil)
  unfold create
  split
  · rename_i hEmpty
    have hNone := (isEmpty_eq_true_iff b).1 hEmpty
    have hTotal := hTotalNil hNone.1
    cases e <;> simp [CreateFault, hNone, hTotal]
  · rename_i hEmpty
    have hSome : ¬ (b.fixed = [] ∧ b.weighted = []) := by
      rwa [← isEmpty_eq_true_iff]
    simp only [Bool.and_eq_true, List.isEmpty_iff, decide_eq_true_eq,
      Bool.not_eq_true', List.isEmpty_eq_false_iff]
    rcases lt_trichotomy b.fixedTotal 1 with hLow | hFull | hOver
    · rw [if_neg hLow.not_gt]
      by_cases hWeighted : b.weighted = []
      · have hFixed : b.fixed ≠ [] := fun h => hSome ⟨h, hWeighted⟩
        rw [if_pos ⟨hWeighted, hLow⟩]
        cases e <;>
          simp [CreateFault, hFixed, hWeighted, hLow, hLow.not_gt, eq_comm]
      · rw [if_neg fun h => hWeighted h.1, if_neg fun h => hLow.ne h.2]
        cases e <;> simp [CreateFault, hWeighted, hLow.not_gt, hLow.ne]
    · have hFixed : b.fixed ≠ [] := hFixedOfPos (hFull ▸ zero_lt_one)
      rw [if_neg hFull.not_gt, if_neg fun h => h.2.ne hFull]
      by_cases hWeighted : b.weighted = []
      · rw [if_neg fun h => h.1 hWeighted]
        cases e <;> simp [CreateFault, hFixed, hWeighted, hFull]
      · rw [if_pos ⟨hWeighted, hFull⟩]
        cases e <;>
          simp [CreateFault, hFixed, hWeighted, hFull, eq_comm]
    · have hFixed : b.fixed ≠ [] := hFixedOfPos (zero_lt_one.trans hOver)
      rw [if_pos hOver]
      cases e <;>
        simp [CreateFault, hFixed, hOver, hOver.not_gt, hOver.ne', eq_comm]

theorem create_of_fits {b : Builder α} (h : Fits b) :
    b.create =
      .ok (Distribution.ofMarginals b.marginals h.marginals_ne_nil) := by
  unfold create
  rw [dif_neg (Bool.not_eq_true _ ▸ h.isEmpty_eq_false)]
  simp only [Bool.and_eq_true, List.isEmpty_iff, decide_eq_true_eq,
    Bool.not_eq_true', List.isEmpty_eq_false_iff]
  rcases h with ⟨hFull, hNone⟩ | ⟨hLow, hSome⟩
  · rw [if_neg hFull.not_gt, if_neg fun h => h.2.ne hFull,
      if_neg fun h => h.1 hNone]
  · rw [if_neg hLow.not_gt, if_neg fun h => hSome h.1,
      if_neg fun h => hLow.ne h.2]

/-- When `create` succeeds, and what it lays out. -/
theorem create_eq_ok_iff (b : Builder α) (d : Distribution α) :
    b.create = .ok d ↔
      ∃ h : b.Fits,
        d = Distribution.ofMarginals b.marginals h.marginals_ne_nil := by
  constructor
  · intro h
    have hFits : b.Fits := by
      by_contra hMisfit
      have hFault : ∀ e, ¬ b.CreateFault e := by
        intro e
        rw [← create_eq_error_iff, h]
        exact nofun
      have hOver : ¬ 1 < b.fixedTotal :=
        fun hOver => hFault (.overfull _) ⟨rfl, hOver⟩
      have hSome : b.fixed = [] → b.weighted ≠ [] := fun hF hW =>
        hFault .noEntries ⟨hF, hW⟩
      rcases eq_or_lt_of_le (not_lt.1 hOver) with hFull | hLow
      · refine hMisfit (Or.inl ⟨hFull, ?_⟩)
        by_contra hWeighted
        exact hFault (.exhausted _) ⟨rfl, hFull, hWeighted⟩
      · refine hMisfit (Or.inr ⟨hLow, fun hWeighted => ?_⟩)
        have hFixed : b.fixed ≠ [] := fun hF => hSome hF hWeighted
        exact hFault (.incomplete _) ⟨rfl, hFixed, hLow, hWeighted⟩
    exact ⟨hFits, Except.ok.inj (h.symm.trans (create_of_fits hFits))⟩
  · rintro ⟨hFits, rfl⟩
    exact create_of_fits hFits

/-- Builders that agree in what decides whether their entries fit. -/
structure Alike (b c : Builder α) : Prop where
  fixedTotal : b.fixedTotal = c.fixedTotal
  fixed : b.fixed.length = c.fixed.length
  weighted : b.weighted.length = c.weighted.length

namespace Alike

variable {b c : Builder α} (h : Alike b c)

include h

/-- They are refused with the same error. -/
theorem createFault_iff (err : Error) :
    b.CreateFault err ↔ c.CreateFault err := by
  cases err <;>
    simp only [CreateFault, ne_eq, ← List.length_eq_zero_iff, h.fixedTotal,
      h.fixed, h.weighted]

theorem fits_iff : b.Fits ↔ c.Fits := by
  simp only [Fits, ne_eq, ← List.length_eq_zero_iff, h.fixedTotal, h.weighted]

/-- They are laid out alike if their entries get the same shares. -/
theorem create_eq (hMarginals : b.marginals = c.marginals) :
    b.create = c.create := by
  cases hCreate : c.create with
  | error err =>
      rw [create_eq_error_iff] at hCreate ⊢
      exact (h.createFault_iff err).2 hCreate
  | ok d =>
      rw [create_eq_ok_iff] at hCreate ⊢
      obtain ⟨hFits, rfl⟩ := hCreate
      refine ⟨h.fits_iff.2 hFits, ?_⟩
      simp only [hMarginals]

end Alike

theorem Fits.sum_marginals {b : Builder α} (hFits : Fits b) (hb : Sound b) :
    (b.marginals.map Prod.snd).sum = 1 := by
  rw [map_snd_marginals]
  exact sum_claimedMarginals hb (hFits.imp And.left And.right)

theorem Fits.marginals_pos {b : Builder α} (hFits : Fits b) (hb : Sound b) :
    ∀ p ∈ b.marginals.map Prod.snd, 0 < p := by
  rw [map_snd_marginals]
  exact hb.claimedMarginals_pos (hFits.symm.imp And.left And.right)

theorem Sound.tabulated {b : Builder α} (hb : Sound b) {d : Distribution α}
    (h : b.create = .ok d) : d.Tabulated := by
  obtain ⟨hFits, rfl⟩ := (create_eq_ok_iff b d).1 h
  exact Distribution.tabulated_ofMarginals _ (hFits.sum_marginals hb)
    (hFits.marginals_pos hb)

/-! ## The outcome of a session -/

/-- **The outcome of `create` behind any sequence of calls.** The four
failures come in a fixed order. If none of them applies, there is a
distribution; its cumulative probabilities are the running sums of the
claimed marginals, and these end at one before the last is set to one. -/
theorem create_session (calls : List (Call α)) :
    let fixed := (accepted calls).filterMap Entry.fixedPart
    let weighted := (accepted calls).filterMap Entry.weightedPart
    let F := (fixed.map Prod.snd).sum
    let W := (weighted.map Prod.snd).sum
    let shares := fixed.map Prod.snd ++
      weighted.map fun g => (1 - F) * g.2 / W
    let outcome := (session calls).create
    (outcome = .error .noEntries ↔ fixed.length + weighted.length = 0) ∧
    (fixed.length + weighted.length ≠ 0 →
      (∀ t, outcome = .error (.overfull t) ↔ t = F ∧ 1 < F) ∧
      (∀ t, outcome = .error (.incomplete t) ↔
        t = F ∧ F < 1 ∧ weighted = []) ∧
      (∀ n, outcome = .error (.exhausted n) ↔
        n = weighted.length ∧ F = 1 ∧ weighted ≠ []) ∧
      (¬ 1 < F → ¬ (F < 1 ∧ weighted = []) → ¬ (F = 1 ∧ weighted ≠ []) →
        ∃ d, outcome = .ok d ∧
          d.values = fixed.map Prod.fst ++ weighted.map Prod.fst ∧
          d.marginals = shares ∧
          d.cumulatives = Distribution.runningSums 0 shares ∧
          (0 :: d.cumulatives).Pairwise (· < ·) ∧
          (∀ c ∈ d.cumulatives, 0 < c ∧ c ≤ 1) ∧
          (Distribution.runningSums 0 shares).getLast? = some 1)) ∧
    (weighted ≠ [] → W ≠ 0) := by
  intro fixed weighted F W shares outcome
  have hb := sound_session calls
  have hFixed : (session calls).fixed = fixed := by rw [session_eq]; rfl
  have hWeighted : (session calls).weighted = weighted := by
    rw [session_eq]; rfl
  have hF : (session calls).fixedTotal = F := by
    rw [fixedTotal_eq_sum, hFixed]
  have hW : (session calls).totalWeight = W := by
    rw [totalWeight_eq_sum, hWeighted]
  have hShares : (session calls).claimedMarginals = shares := by
    rw [claimedMarginals, hF, hW, hFixed, hWeighted]
  have hEmpty : fixed.length + weighted.length = 0 ↔
      fixed = [] ∧ weighted = [] := by
    rw [Nat.add_eq_zero_iff, List.length_eq_zero_iff, List.length_eq_zero_iff]
  refine ⟨?_, fun hSome => ⟨?_, ?_, ?_, ?_⟩, ?_⟩
  · rw [create_eq_error_iff, CreateFault, hFixed, hWeighted, hEmpty]
  · intro t
    rw [create_eq_error_iff, CreateFault, hF]
  · intro t
    rw [create_eq_error_iff, CreateFault, hF, hFixed, hWeighted]
    constructor
    · rintro ⟨ht, -, hLow, hNone⟩
      exact ⟨ht, hLow, hNone⟩
    · rintro ⟨ht, hLow, hNone⟩
      exact ⟨ht, fun hNil => hSome (hEmpty.2 ⟨hNil, hNone⟩), hLow, hNone⟩
  · intro n
    rw [create_eq_error_iff, CreateFault, hF, hWeighted]
  · intro hOver hIncomplete hExhausted
    have hFits : (session calls).Fits := by
      rw [Fits, hF, hWeighted]
      by_cases hNone : weighted = []
      · refine Or.inl ⟨le_antisymm (not_lt.1 hOver) ?_, hNone⟩
        exact not_lt.1 fun hLow => hIncomplete ⟨hLow, hNone⟩
      · refine Or.inr ⟨lt_of_le_of_ne (not_lt.1 hOver) ?_, hNone⟩
        exact fun hFull => hExhausted ⟨hFull, hNone⟩
    have hSum := hFits.sum_marginals hb
    have hTable := hb.tabulated (create_of_fits hFits)
    refine ⟨_, create_of_fits hFits, ?_, ?_, ?_, hTable.increasing, ?_, ?_⟩
    · rw [Distribution.values_ofMarginals, map_fst_marginals, hFixed, hWeighted]
    · rw [Distribution.marginals_ofMarginals _ hSum, map_snd_marginals, hShares]
    · rw [Distribution.cumulatives_ofMarginals _ hSum, map_snd_marginals,
        hShares]
    · intro c hc
      exact ⟨hTable.cumulative_pos hc, hTable.cumulative_le_one hc⟩
    · rw [← hShares, ← map_snd_marginals,
        ← Distribution.cumulatives_ofMarginals hFits.marginals_ne_nil hSum]
      exact hTable.last
  · intro hSome
    rw [← hW]
    exact (hb.totalWeight_pos (by rwa [hWeighted])).ne'

end Builder

/-! ## Reachable distributions -/

/-- The distributions that can be built: of a single value, from a session
with a builder, from a list of entries, or from text. -/
inductive Distribution.Reachable : Distribution α → Prop where
  | uniform (v : α) : Reachable (Distribution.uniform v)
  | create (calls : List (Builder.Call α)) {d : Distribution α} :
      (Builder.session calls).create = .ok d → Reachable d
  | ofEntries (es : List (Entry α)) {d : Distribution α} :
      Distribution.ofEntries es = .ok d → Reachable d
  | read (c : Codec α) (text : String) {d : Distribution α} :
      c.read text = .ok d → Reachable d

/-- Reading is splitting into entries and building from them. -/
theorem Codec.ofEntries_of_read {c : Codec α} {text : String}
    {d : Distribution α} (h : c.read text = .ok d) :
    ∃ es, c.readEntries text = .ok es ∧ Distribution.ofEntries es = .ok d := by
  unfold Codec.read at h
  cases hEntries : c.readEntries text with
  | error e => rw [hEntries] at h; cases h
  | ok es => rw [hEntries] at h; exact ⟨es, rfl, h⟩

namespace Distribution

/-- A list that builds a distribution is a session without refusals. -/
theorem session_of_ofEntries {es : List (Entry α)} {d : Distribution α}
    (h : ofEntries es = .ok d) :
    (Builder.session (es.map .add)).create = .ok d ∧
      ∀ e ∈ es, e.fault? = none := by
  rw [ofEntries_eq] at h
  cases hFault : es.findSome? Entry.fault? with
  | some err => simp [hFault] at h
  | none =>
      rw [hFault] at h
      have hValid : ∀ e ∈ es, e.fault? = none := by
        simpa using List.findSome?_eq_none_iff.1 hFault
      rw [Builder.session_add hValid]
      exact ⟨h, hValid⟩

/-- Building invents no values. -/
theorem exists_entry_of_mem_values {es : List (Entry α)} {d : Distribution α}
    (h : ofEntries es = .ok d) : ∀ v ∈ d.values, ∃ e ∈ es, e.value = v := by
  rw [ofEntries_eq] at h
  split at h
  · obtain ⟨hFits, rfl⟩ := (Builder.create_eq_ok_iff _ d).1 h
    intro v hv
    rw [values_ofMarginals, Builder.map_fst_marginals, List.mem_append] at hv
    rcases hv with hv | hv
    · obtain ⟨g, hg, rfl⟩ := List.mem_map.1 hv
      obtain ⟨e, he, hPart⟩ := List.mem_filterMap.1 hg
      exact ⟨e, he, Entry.value_of_fixedPart hPart⟩
    · obtain ⟨g, hg, rfl⟩ := List.mem_map.1 hv
      obtain ⟨e, he, hPart⟩ := List.mem_filterMap.1 hg
      exact ⟨e, he, Entry.value_of_weightedPart hPart⟩
  · cases h

/-- Whatever is reachable is the distribution of a single value or comes
from a session. -/
theorem Reachable.cases {d : Distribution α} (h : Reachable d) :
    (∃ v, d = Distribution.uniform v) ∨
      ∃ calls, (Builder.session calls).create = .ok d := by
  cases h with
  | uniform v => exact Or.inl ⟨v, rfl⟩
  | create calls h => exact Or.inr ⟨calls, h⟩
  | ofEntries es h => exact Or.inr ⟨_, (session_of_ofEntries h).1⟩
  | read c text h =>
      obtain ⟨es, -, hBuilt⟩ := Codec.ofEntries_of_read h
      exact Or.inr ⟨_, (session_of_ofEntries hBuilt).1⟩

/-- The table of every distribution that can be built is in order. -/
theorem Reachable.tabulated {d : Distribution α} (h : Reachable d) :
    d.Tabulated := by
  rcases h.cases with ⟨v, rfl⟩ | ⟨calls, hCreate⟩
  · exact tabulated_uniform v
  · exact (Builder.sound_session calls).tabulated hCreate

end Distribution

end ValueMix
