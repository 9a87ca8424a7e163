import Mathlib
import ValueMix.Proofs.Building

/-!
# Refused calls

A call leaves a builder whether it is refused or not. A builder checks an entry
before it takes it, so the one that a refused call leaves is the one it found.
A session with refusals ends as if those calls had not been made, and it builds
what the list of the entries taken builds.

## Main results

* `run_eq_error_iff` — which calls are refused, and what they report.
* `perform_of_refused` — a refused call leaves the builder as it was.
* `session_of_refused` — a refused call can be left out of a session.
* `taken_eq` — what a session takes are the valid entries of its calls.
* `session_refusals` — what any sequence of calls leaves and builds.
-/

namespace ValueMix

variable {α : Type}

/-- The shares that no builder takes, with what is reported. -/
inductive Share.OutOfRange : Share → Error → Prop where
  | weight {w : ℚ} (h : w ≤ 0) : OutOfRange (.weighted w) (.invalidWeight w)
  | probability {p : ℚ} (h : p ≤ 0 ∨ 1 < p) :
      OutOfRange (.fixed p) (.invalidProbability p)

theorem Entry.fault?_eq_some_iff (e : Entry α) (err : Error) :
    e.fault? = some err ↔ e.share.OutOfRange err := by
  obtain ⟨v, share⟩ := e
  constructor
  · intro h
    cases share with
    | fixed p =>
        simp only [Entry.fault?] at h
        split at h
        · cases h
        · rename_i hRange
          obtain rfl := Option.some.inj h
          rw [not_and_or, not_lt, not_le] at hRange
          exact .probability hRange
    | weighted w =>
        simp only [Entry.fault?] at h
        split at h
        · cases h
        · rename_i hWeight
          obtain rfl := Option.some.inj h
          exact .weight (not_lt.1 hWeight)
  · intro h
    cases h with
    | weight h => exact if_neg (not_lt.2 h)
    | probability h =>
        refine if_neg fun hRange => ?_
        exact h.elim (not_le.2 hRange.1) (not_lt.2 hRange.2)

theorem Entry.fault?_eq_none_iff (e : Entry α) :
    e.fault? = none ↔ ∀ err, ¬ e.share.OutOfRange err := by
  rw [Option.eq_none_iff_forall_ne_some]
  exact forall_congr' fun err => not_congr (e.fault?_eq_some_iff err)

namespace Builder

/-! ## One call -/

/-- A call is refused if its entry is out of range, in whatever state the
builder is. -/
theorem run_eq_error_iff (b : Builder α) (c : Call α) (err : Error) :
    c.run b = .error err ↔ c.entry.share.OutOfRange err := by
  rw [← Entry.fault?_eq_some_iff, run_eq_add, add_eq]
  cases c.entry.fault? with
  | none => simp
  | some fault => simp

/-- A refused call leaves the builder as it was. -/
theorem perform_of_refused {b : Builder α} {c : Call α} {err : Error}
    (h : c.run b = .error err) : b.perform c = b := by
  rw [run_eq_error_iff, ← Entry.fault?_eq_some_iff] at h
  rw [perform_eq, h]

/-! ## A session -/

theorem session_append (before after : List (Call α)) :
    session (before ++ after) = after.foldl perform (session before) := by
  rw [session, List.foldl_append]
  rfl

/-- A refused call can be left out of a session. -/
theorem session_of_refused {before after : List (Call α)} {c : Call α}
    {err : Error} (h : c.run (session before) = .error err) :
    session (before ++ c :: after) = session (before ++ after) := by
  rw [session_append, List.foldl_cons, perform_of_refused h, session_append]

/-- The entries of the calls that are not refused, from a builder on. -/
def taken (b : Builder α) : List (Call α) → List (Entry α)
  | [] => []
  | c :: rest =>
      match c.run b with
      | .ok b' => c.entry :: taken b' rest
      | .error _ => taken b rest

/-- What a session takes does not depend on the builder that it begins with:
it is the valid entries of its calls. -/
theorem taken_eq (b : Builder α) (calls : List (Call α)) :
    taken b calls = accepted calls := by
  induction calls generalizing b with
  | nil => rfl
  | cons c rest ih =>
      rw [taken, run_eq_add, add_eq, accepted, validEntries, List.map_cons,
        List.filter_cons]
      cases c.entry.fault? with
      | none => exact congrArg (c.entry :: ·) (ih _)
      | some err => exact ih b

/-- Every entry is held once, as one kind or the other. -/
theorem size_holding (es : List (Entry α)) : (holding es).size = es.length := by
  induction es with
  | nil => rfl
  | cons e rest ih =>
      obtain ⟨v, share⟩ := e
      rw [List.length_cons, ← ih]
      cases share with
      | fixed p => exact Nat.succ_add _ _
      | weighted w => exact Nat.add_succ _ _

end Builder

/-- The first invalid entry of a list decides the error. -/
theorem Distribution.ofEntries_of_outOfRange {before after : List (Entry α)}
    {e : Entry α} {err : Error}
    (hBefore : ∀ e' ∈ before, ∀ err', ¬ e'.share.OutOfRange err')
    (h : e.share.OutOfRange err) :
    ofEntries (before ++ e :: after) = .error err := by
  have hNone : before.findSome? Entry.fault? = none := by
    rw [List.findSome?_eq_none_iff]
    intro e' he'
    exact e'.fault?_eq_none_iff.2 (hBefore e' he')
  have hFault : e.fault? = some err := (e.fault?_eq_some_iff err).2 h
  rw [ofEntries_eq, List.findSome?_append, hNone, List.findSome?_cons, hFault]
  rfl

namespace Builder

/-- **What any sequence of calls leaves and builds.** A call is refused exactly
if its weight is not positive or its probability is not in `(0, 1]`, and reports
that number. A refused call leaves the builder as it was, and the session ends
as it would without that call. In the end the builder holds as many entries as
calls were taken, and it builds what the list of the entries taken builds.
Building from a list reports the first entry that is out of range. -/
theorem session_refusals (calls : List (Call α)) :
    (∀ (before after : List (Call α)) (c : Call α) (err : Error),
      calls = before ++ c :: after →
      (c.run (session before) = .error err ↔ c.entry.share.OutOfRange err) ∧
      (c.run (session before) = .error err →
        session (before ++ [c]) = session before ∧
        session calls = session (before ++ after))) ∧
    (session calls).size = (taken empty calls).length ∧
    (session calls).create = Distribution.ofEntries (taken empty calls) ∧
    (∀ (before after : List (Entry α)) (e : Entry α) (err : Error),
      (∀ e' ∈ before, ∀ err', ¬ e'.share.OutOfRange err') →
      e.share.OutOfRange err →
      Distribution.ofEntries (before ++ e :: after) = .error err) := by
  refine ⟨?_, ?_, ?_, ?_⟩
  · intro before after c err hCalls
    refine ⟨run_eq_error_iff _ c err, fun hRefused => ⟨?_, ?_⟩⟩
    · rw [session_of_refused hRefused, List.append_nil]
    · rw [hCalls, session_of_refused hRefused]
  · rw [taken_eq, session_eq, size_holding]
  · have hValid : ∀ e ∈ accepted calls, e.fault? = none := fun _ he =>
      fault?_of_mem_accepted he
    rw [taken_eq, session_eq, Distribution.ofEntries_of_valid hValid]
  · intro before after e err hBefore h
    exact Distribution.ofEntries_of_outOfRange hBefore h

/-- A weight of zero between two entries that are taken. -/
theorem session_refusals_between :
    (Call.addWeighted "b" 0).run (session [.addFixed "a" (1 / 2)]) =
        .error (.invalidWeight 0) ∧
      session [.addFixed "a" (1 / 2), .addWeighted "b" 0,
        .add ⟨"c", .weighted 3⟩] =
        session [.addFixed "a" (1 / 2), .add ⟨"c", .weighted 3⟩] := by
  have hCall := (session_refusals [.addFixed "a" (1 / 2), .addWeighted "b" 0,
    .add ⟨"c", .weighted 3⟩]).1 [.addFixed "a" (1 / 2)]
    [.add ⟨"c", .weighted 3⟩] (.addWeighted "b" 0) (.invalidWeight 0) rfl
  have hRefused := hCall.1.2 (.weight le_rfl)
  exact ⟨hRefused, (hCall.2 hRefused).2⟩

end Builder

end ValueMix
