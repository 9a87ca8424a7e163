import ValueMix.Distribution.Basic
import ValueMix.Error

/-!
# Building distributions

A builder collects entries of two kinds. A fixed entry claims an exact
probability. A weighted entry claims a part of what the fixed entries leave
over, in proportion to its weight. `Builder.create` checks that the two kinds
fit together and lays out the distribution: fixed entries first, then weighted
entries, each kind in the order of addition.
-/

namespace ValueMix

/-- How much of a distribution an entry claims. -/
inductive Share where
  /-- An exact probability, in `(0, 1]`. -/
  | fixed (probability : Rat)
  /-- A positive weight over the mass that fixed entries leave. -/
  | weighted (weight : Rat)
  deriving DecidableEq

/-- A value with its share. -/
structure Entry (α : Type) where
  value : α
  share : Share
  deriving DecidableEq

/-- The entries collected so far, each kind in the order of addition. -/
structure Builder (α : Type) where
  fixed : List (α × Rat)
  weighted : List (α × Rat)

namespace Builder

variable {α : Type}

/-- A builder without entries. -/
def empty : Builder α := ⟨[], []⟩

/-- The number of entries. -/
def size (b : Builder α) : Nat := b.fixed.length + b.weighted.length

def isEmpty (b : Builder α) : Bool := b.size = 0

/-! ## Adding entries -/

/-- Calls that work on a builder and may fail. Either way they leave a builder
behind. -/
abbrev Filling (α : Type) := ExceptT Error (StateM (Builder α))

/-- Adds a value that claims a positive weight. -/
def offerWeighted (value : α) (weight : Rat) : Filling α Unit := do
  if ¬ 0 < weight then throw (.invalidWeight weight)
  modify fun b => { b with weighted := b.weighted ++ [(value, weight)] }

/-- Adds a value that claims a probability in `(0, 1]`. -/
def offerFixed (value : α) (probability : Rat) : Filling α Unit := do
  if ¬ (0 < probability ∧ probability ≤ 1) then
    throw (.invalidProbability probability)
  modify fun b => { b with fixed := b.fixed ++ [(value, probability)] }

/-- Adds an entry of either kind. -/
def offer (e : Entry α) : Filling α Unit :=
  match e.share with
  | .fixed p => offerFixed e.value p
  | .weighted w => offerWeighted e.value w

/-- The builder that a call leaves, or the error it fails with. -/
def outcome (call : Filling α Unit) (b : Builder α) :
    Except Error (Builder α) :=
  match call.run.run b with
  | (.ok (), b') => .ok b'
  | (.error err, _) => .error err

/-- The builder with one more value that claims a positive weight. -/
def addWeighted (b : Builder α) (value : α) (weight : Rat) :
    Except Error (Builder α) :=
  outcome (offerWeighted value weight) b

/-- The builder with one more value that claims a probability in `(0, 1]`. -/
def addFixed (b : Builder α) (value : α) (probability : Rat) :
    Except Error (Builder α) :=
  outcome (offerFixed value probability) b

/-- The builder with one more entry of either kind. -/
def add (b : Builder α) (e : Entry α) : Except Error (Builder α) :=
  outcome (offer e) b

/-! ## Building -/

/-- The sum of the fixed probabilities. -/
def fixedTotal (b : Builder α) : Rat := (b.fixed.map Prod.snd).foldr (· + ·) 0

/-- The sum of the weights. -/
def totalWeight (b : Builder α) : Rat :=
  (b.weighted.map Prod.snd).foldr (· + ·) 0

/-- Every value with the probability it gets. -/
def marginals (b : Builder α) : List (α × Rat) :=
  let rest := 1 - b.fixedTotal
  let weight := b.totalWeight
  b.fixed ++ b.weighted.map fun (v, w) => (v, rest * w / weight)

theorem marginals_ne_nil (b : Builder α) (h : b.isEmpty = false) :
    b.marginals ≠ [] := by
  intro hNil
  have hLen := congrArg List.length hNil
  simp only [marginals, List.length_append, List.length_map, List.length_nil]
    at hLen
  have hSize : b.fixed.length + b.weighted.length ≠ 0 := of_decide_eq_false h
  omega

/-- The distribution of the collected entries. -/
def create (b : Builder α) : Except Error (Distribution α) :=
  if h : b.isEmpty then .error .noEntries
  else
    let total := b.fixedTotal
    if 1 < total then .error (.overfull total)
    else if b.weighted.isEmpty && total < 1 then .error (.incomplete total)
    else if !b.weighted.isEmpty && total = 1 then
      .error (.exhausted b.weighted.length)
    else
      .ok (Distribution.ofMarginals b.marginals
        (b.marginals_ne_nil (by simpa using h)))

end Builder

/-- The distribution of a list of entries. The first entry that cannot be added
decides the error. -/
def Distribution.ofEntries {α : Type} (entries : List (Entry α)) :
    Except Error (Distribution α) := do
  let b ← entries.foldlM Builder.add Builder.empty
  b.create

end ValueMix
