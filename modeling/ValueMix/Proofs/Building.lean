import Mathlib
import ValueMix.Proofs.Layout
import ValueMix.Distribution.Builder

/-!
# Building sessions

A session is a sequence of calls on a builder, some of which may be refused.
What it leaves in the builder are the valid entries of its calls, sorted by
kind and otherwise in order; that is all that `Builder.create` sees.

## Main results

* `run_offer` — what one call reports, and the builder that it leaves.
* `session_eq` — the builder after a session.
* `ofEntries_eq` — building from a list is a session that stops at the first
  invalid entry.
* `sound_session` — whatever a session leaves holds valid entries only.
* `sum_claimedMarginals`, `Sound.claimedMarginals_pos` — the marginals that
  fitting entries claim are positive and add up to one.
-/

namespace ValueMix

variable {α : Type}

/-! ## Valid entries -/

/-- Why a builder refuses an entry. -/
def Entry.fault? (e : Entry α) : Option Error :=
  match e.share with
  | .fixed p => if 0 < p ∧ p ≤ 1 then none else some (.invalidProbability p)
  | .weighted w => if 0 < w then none else some (.invalidWeight w)

/-- The value and the probability of a fixed entry. -/
def Entry.fixedPart (e : Entry α) : Option (α × ℚ) :=
  match e.share with
  | .fixed p => some (e.value, p)
  | .weighted _ => none

/-- The value and the weight of a weighted entry. -/
def Entry.weightedPart (e : Entry α) : Option (α × ℚ) :=
  match e.share with
  | .fixed _ => none
  | .weighted w => some (e.value, w)

theorem Entry.value_of_fixedPart {e : Entry α} {g : α × ℚ}
    (h : e.fixedPart = some g) : e.value = g.1 := by
  obtain ⟨value, share⟩ := e
  cases share with
  | fixed p => rw [← Option.some.inj h]
  | weighted w => cases h

theorem Entry.value_of_weightedPart {e : Entry α} {g : α × ℚ}
    (h : e.weightedPart = some g) : e.value = g.1 := by
  obtain ⟨value, share⟩ := e
  cases share with
  | fixed p => cases h
  | weighted w => rw [← Option.some.inj h]

/-- The entries that a builder takes, in order. -/
def validEntries (es : List (Entry α)) : List (Entry α) :=
  es.filter fun e => e.fault?.isNone

theorem fixedPart_of_valid {e : Entry α} (h : e.fault? = none) {v : α}
    {p : ℚ} (hPart : e.fixedPart = some (v, p)) : 0 < p ∧ p ≤ 1 := by
  obtain ⟨value, share⟩ := e
  cases share with
  | weighted w => simp [Entry.fixedPart] at hPart
  | fixed q =>
      simp only [Entry.fixedPart, Option.some.injEq, Prod.mk.injEq] at hPart
      by_contra hBad
      rw [← hPart.2] at hBad
      simp [Entry.fault?, hBad] at h

theorem weightedPart_of_valid {e : Entry α} (h : e.fault? = none) {v : α}
    {w : ℚ} (hPart : e.weightedPart = some (v, w)) : 0 < w := by
  obtain ⟨value, share⟩ := e
  cases share with
  | fixed p => simp [Entry.weightedPart] at hPart
  | weighted q =>
      simp only [Entry.weightedPart, Option.some.injEq, Prod.mk.injEq] at hPart
      by_contra hBad
      rw [← hPart.2] at hBad
      simp [Entry.fault?, hBad] at h

namespace Builder

/-! ## Adding -/

/-- The builder with an entry behind the others of its kind. -/
def push (b : Builder α) (e : Entry α) : Builder α :=
  ⟨b.fixed ++ e.fixedPart.toList, b.weighted ++ e.weightedPart.toList⟩

/-- The builder that holds the given entries. -/
def holding (es : List (Entry α)) : Builder α :=
  ⟨es.filterMap Entry.fixedPart, es.filterMap Entry.weightedPart⟩

theorem run_offerFixed (b : Builder α) (v : α) (p : ℚ) :
    (offerFixed v p).run.run b =
      if 0 < p ∧ p ≤ 1 then (.ok (), { b with fixed := b.fixed ++ [(v, p)] })
      else (.error (.invalidProbability p), b) := by
  by_cases hRange : 0 < p ∧ p ≤ 1
  · rw [if_pos hRange, offerFixed, if_neg (not_not.2 hRange)]
    rfl
  · rw [if_neg hRange, offerFixed, if_pos hRange]
    rfl

theorem run_offerWeighted (b : Builder α) (v : α) (w : ℚ) :
    (offerWeighted v w).run.run b =
      if 0 < w then (.ok (), { b with weighted := b.weighted ++ [(v, w)] })
      else (.error (.invalidWeight w), b) := by
  by_cases hWeight : 0 < w
  · rw [if_pos hWeight, offerWeighted, if_neg (not_not.2 hWeight)]
    rfl
  · rw [if_neg hWeight, offerWeighted, if_pos hWeight]
    rfl

/-- A valid entry is pushed; any other is reported, and the builder stays. -/
theorem run_offer (b : Builder α) (e : Entry α) :
    (offer e).run.run b = match e.fault? with
      | none => (.ok (), b.push e)
      | some err => (.error err, b) := by
  obtain ⟨value, share⟩ := e
  cases share with
  | fixed p =>
      simp only [offer, run_offerFixed, Entry.fault?]
      split <;> simp [push, Entry.fixedPart, Entry.weightedPart]
  | weighted w =>
      simp only [offer, run_offerWeighted, Entry.fault?]
      split <;> simp [push, Entry.fixedPart, Entry.weightedPart]

theorem add_eq (b : Builder α) (e : Entry α) :
    b.add e = match e.fault? with
      | none => .ok (b.push e)
      | some err => .error err := by
  rw [add, outcome, run_offer]
  cases e.fault? <;> rfl

theorem push_holding (es : List (Entry α)) (e : Entry α) :
    (holding es).push e = holding (es ++ [e]) := by
  simp only [push, holding, List.filterMap_append, List.filterMap_cons,
    List.filterMap_nil]
  cases e.fixedPart <;> cases e.weightedPart <;> rfl

/-! ## Sessions -/

/-- A call that adds to a builder. -/
inductive Call (α : Type) where
  | addFixed (value : α) (probability : ℚ)
  | addWeighted (value : α) (weight : ℚ)
  | add (e : Entry α)

/-- The outcome of a call. -/
def Call.run (b : Builder α) : Call α → Except Error (Builder α)
  | addFixed v p => b.addFixed v p
  | addWeighted v w => b.addWeighted v w
  | add e => b.add e

/-- The entry that a call offers. -/
def Call.entry : Call α → Entry α
  | addFixed v p => ⟨v, .fixed p⟩
  | addWeighted v w => ⟨v, .weighted w⟩
  | add e => e

/-- The entry that a call offers, as a step on the builder. -/
def Call.offer : Call α → Filling α Unit
  | addFixed v p => offerFixed v p
  | addWeighted v w => offerWeighted v w
  | add e => Builder.offer e

/-- The builder that a call leaves, refused or not. -/
def perform (b : Builder α) (c : Call α) : Builder α := (c.offer.run.run b).2

/-- The builder behind a sequence of calls. -/
def session (calls : List (Call α)) : Builder α := calls.foldl perform empty

/-- The entries that a sequence of calls adds, in order. -/
def accepted (calls : List (Call α)) : List (Entry α) :=
  validEntries (calls.map Call.entry)

theorem run_eq_add (b : Builder α) (c : Call α) : c.run b = b.add c.entry := by
  cases c <;> rfl

theorem Call.offer_eq (c : Call α) : c.offer = Builder.offer c.entry := by
  cases c <;> rfl

theorem perform_eq (b : Builder α) (c : Call α) :
    b.perform c = match c.entry.fault? with
      | none => b.push c.entry
      | some _ => b := by
  rw [perform, Call.offer_eq, run_offer]
  cases c.entry.fault? <;> rfl

theorem perform_holding (es : List (Entry α)) (c : Call α) :
    (holding es).perform c = holding (es ++ validEntries [c.entry]) := by
  rw [perform_eq]
  cases hFault : c.entry.fault? with
  | none => simp [validEntries, hFault, push_holding]
  | some err => simp [validEntries, hFault]

private theorem foldl_perform_holding (es : List (Entry α))
    (calls : List (Call α)) :
    calls.foldl perform (holding es) = holding (es ++ accepted calls) := by
  induction calls generalizing es with
  | nil => simp [accepted, validEntries]
  | cons c rest ih =>
      rw [List.foldl_cons, perform_holding, ih]
      simp only [accepted, validEntries, List.map_cons, List.append_assoc,
        ← List.filter_append, List.singleton_append]

/-- A session leaves the valid entries of its calls, each kind in order. -/
theorem session_eq (calls : List (Call α)) :
    session calls = holding (accepted calls) :=
  foldl_perform_holding [] calls

/-! ## Lists of entries -/

private theorem foldlM_add_holding (held es : List (Entry α)) :
    es.foldlM add (holding held) =
      match es.findSome? Entry.fault? with
      | none => .ok (holding (held ++ es))
      | some err => .error err := by
  induction es generalizing held with
  | nil => simp [pure, Except.pure]
  | cons e rest ih =>
      rw [List.foldlM_cons, add_eq, List.findSome?_cons]
      cases hFault : e.fault? with
      | some err => rfl
      | none =>
          show rest.foldlM add ((holding held).push e) = _
          rw [push_holding, ih]
          simp only [List.append_assoc, List.singleton_append]

end Builder

/-- Building from a list stops at the first entry that is not valid. -/
theorem Distribution.ofEntries_eq (es : List (Entry α)) :
    Distribution.ofEntries es =
      match es.findSome? Entry.fault? with
      | none => (Builder.holding es).create
      | some err => .error err := by
  show (es.foldlM Builder.add (Builder.holding [])).bind Builder.create = _
  rw [Builder.foldlM_add_holding]
  cases es.findSome? Entry.fault? <;> rfl

/-- Valid entries are all taken. -/
theorem Distribution.ofEntries_of_valid {es : List (Entry α)}
    (h : ∀ e ∈ es, e.fault? = none) :
    ofEntries es = (Builder.holding es).create := by
  have hFault : es.findSome? Entry.fault? = none :=
    List.findSome?_eq_none_iff.2 h
  rw [ofEntries_eq, hFault]

namespace Builder

theorem accepted_add (es : List (Entry α)) :
    accepted (es.map Call.add) = validEntries es := by
  simp only [accepted, List.map_map]
  congr 1
  exact List.map_id es

/-- Valid entries are all held behind a session that adds them. -/
theorem session_add {es : List (Entry α)} (h : ∀ e ∈ es, e.fault? = none) :
    session (es.map Call.add) = holding es := by
  have hAll : validEntries es = es := by
    refine List.filter_eq_self.2 fun e he => ?_
    rw [h e he]
    rfl
  rw [session_eq, accepted_add, hAll]

/-! ## Creating -/

/-- The invariant of builders: every entry in them is valid. -/
structure Sound (b : Builder α) : Prop where
  fixed : ∀ g ∈ b.fixed, 0 < g.2 ∧ g.2 ≤ 1
  weighted : ∀ g ∈ b.weighted, 0 < g.2

theorem sound_holding {es : List (Entry α)} (h : ∀ e ∈ es, e.fault? = none) :
    Sound (holding es) where
  fixed := by
    rintro ⟨v, p⟩ hg
    obtain ⟨e, he, hPart⟩ := List.mem_filterMap.1 hg
    exact fixedPart_of_valid (h e he) hPart
  weighted := by
    rintro ⟨v, w⟩ hg
    obtain ⟨e, he, hPart⟩ := List.mem_filterMap.1 hg
    exact weightedPart_of_valid (h e he) hPart

theorem fault?_of_mem_accepted {calls : List (Call α)} {e : Entry α}
    (he : e ∈ accepted calls) : e.fault? = none := by
  simpa [accepted, validEntries] using (List.mem_filter.1 he).2

theorem sound_session (calls : List (Call α)) : Sound (session calls) := by
  rw [session_eq]
  exact sound_holding fun _ he => fault?_of_mem_accepted he

theorem fixedTotal_eq_sum (b : Builder α) :
    b.fixedTotal = (b.fixed.map Prod.snd).sum := by
  rw [fixedTotal, List.sum_eq_foldr]

theorem totalWeight_eq_sum (b : Builder α) :
    b.totalWeight = (b.weighted.map Prod.snd).sum := by
  rw [totalWeight, List.sum_eq_foldr]

/-- The marginal probabilities that the entries of a builder claim. -/
def claimedMarginals (b : Builder α) : List ℚ :=
  b.fixed.map Prod.snd ++
    b.weighted.map fun g => (1 - b.fixedTotal) * g.2 / b.totalWeight

theorem map_snd_marginals (b : Builder α) :
    b.marginals.map Prod.snd = b.claimedMarginals := by
  simp only [marginals, claimedMarginals, List.map_append, List.map_map]
  rfl

theorem map_fst_marginals (b : Builder α) :
    b.marginals.map Prod.fst =
      b.fixed.map Prod.fst ++ b.weighted.map Prod.fst := by
  simp only [marginals, List.map_append, List.map_map]
  rfl

theorem Sound.totalWeight_pos {b : Builder α} (hb : Sound b)
    (h : b.weighted ≠ []) : 0 < b.totalWeight := by
  rw [totalWeight_eq_sum]
  refine List.sum_pos _ ?_ (by simpa using h)
  intro w hw
  obtain ⟨g, hg, rfl⟩ := List.mem_map.1 hw
  exact hb.weighted g hg

theorem isEmpty_eq_true_iff (b : Builder α) :
    b.isEmpty = true ↔ b.fixed = [] ∧ b.weighted = [] := by
  simp [isEmpty, size]

/-- The weighted entries share all that the fixed ones leave. -/
theorem sum_claimedMarginals {b : Builder α} (hb : Sound b)
    (h : b.fixedTotal = 1 ∨ b.weighted ≠ []) : b.claimedMarginals.sum = 1 := by
  have hShares : ∀ gs : List (α × ℚ), ∀ r t : ℚ,
      (gs.map fun g => r * g.2 / t).sum = r * (gs.map Prod.snd).sum / t := by
    intro gs r t
    simp only [div_eq_mul_inv, List.sum_map_mul_right, List.sum_map_mul_left]
  rw [claimedMarginals, List.sum_append, hShares, ← fixedTotal_eq_sum,
    ← totalWeight_eq_sum]
  by_cases hNone : b.weighted = []
  · have hFull : b.fixedTotal = 1 := h.resolve_right (absurd hNone)
    rw [hFull]
    simp
  · have hPos := hb.totalWeight_pos hNone
    rw [mul_div_cancel_right₀ _ hPos.ne']
    ring

theorem Sound.claimedMarginals_pos {b : Builder α} (hb : Sound b)
    (h : b.fixedTotal < 1 ∨ b.weighted = []) :
    ∀ p ∈ b.claimedMarginals, 0 < p := by
  intro p hp
  rcases List.mem_append.1 hp with hFixed | hWeighted
  · obtain ⟨g, hg, rfl⟩ := List.mem_map.1 hFixed
    exact (hb.fixed g hg).1
  · obtain ⟨g, hg, rfl⟩ := List.mem_map.1 hWeighted
    have hSome : b.weighted ≠ [] := List.ne_nil_of_mem hg
    have hRest : 0 < 1 - b.fixedTotal := by
      have := h.resolve_right hSome
      linarith
    exact div_pos (mul_pos hRest (hb.weighted g hg)) (hb.totalWeight_pos hSome)

/-- Fixed entries fill the whole mass on their own, or leave some of it to
weighted ones. -/
def Fits (b : Builder α) : Prop :=
  (b.fixedTotal = 1 ∧ b.weighted = []) ∨
    (b.fixedTotal < 1 ∧ b.weighted ≠ [])

theorem Fits.isEmpty_eq_false {b : Builder α} (h : Fits b) :
    b.isEmpty = false := by
  rw [← Bool.not_eq_true, isEmpty_eq_true_iff]
  intro hNone
  rcases h with ⟨hTotal, -⟩ | ⟨-, hSome⟩
  · simp [fixedTotal, hNone.1] at hTotal
  · exact hSome hNone.2

theorem Fits.marginals_ne_nil {b : Builder α} (h : Fits b) : b.marginals ≠ [] :=
  b.marginals_ne_nil h.isEmpty_eq_false

/-- Each way in which `create` fails, with what it reports. -/
def CreateFault (b : Builder α) : Error → Prop
  | .noEntries => b.fixed = [] ∧ b.weighted = []
  | .overfull t => t = b.fixedTotal ∧ 1 < b.fixedTotal
  | .incomplete t =>
      t = b.fixedTotal ∧ b.fixed ≠ [] ∧ b.fixedTotal < 1 ∧ b.weighted = []
  | .exhausted n =>
      n = b.weighted.length ∧ b.fixedTotal = 1 ∧ b.weighted ≠ []
  | _ => False

end Builder

end ValueMix
