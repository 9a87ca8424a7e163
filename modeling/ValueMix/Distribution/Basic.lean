import ValueMix.Binary64.Threshold

/-!
# Discrete distributions

A distribution lays out a finite list of values on the interval `[0, 1)`. Every
value owns a cell, which ends at its cumulative probability and begins where the
cell before it ends. A draw `x` belongs to the first cell that ends above `x`,
so a draw on a boundary belongs to the cell above.

`Distribution.indexAt` finds the cell of a binary64 draw with comparisons of
thresholds. It agrees with `Distribution.exactIndexAt`, which counts the
cumulative probabilities that the draw's exact value reaches.
-/

namespace ValueMix

/-- A value with its cumulative probability and the threshold of that
probability. -/
structure Cell (α : Type) where
  value : α
  upper : Rat
  threshold : Binary64

/-- The cell of a value that ends at a given cumulative probability. -/
def Cell.endingAt {α : Type} (value : α) (upper : Rat) : Cell α :=
  ⟨value, upper, Binary64.threshold upper⟩

/-- A distribution over a finite, ordered list of values. -/
structure Distribution (α : Type) where
  cells : Array (Cell α)
  cells_pos : 0 < cells.size

namespace Distribution

variable {α : Type}

/-! ## Layout -/

/-- The cells of values with given marginal probabilities, from `below` upwards.
The last cell ends at one. -/
def layOut (below : Rat) : List (α × Rat) → List (Cell α)
  | [] => []
  | [(v, _)] => [Cell.endingAt v 1]
  | (v, p) :: next :: rest =>
      Cell.endingAt v (below + p) :: layOut (below + p) (next :: rest)

@[simp] theorem length_layOut (below : Rat) (shares : List (α × Rat)) :
    (layOut below shares).length = shares.length := by
  fun_induction layOut below shares with
  | case1 => rfl
  | case2 => rfl
  | case3 below v p next rest ih => simpa using ih

/-- The distribution of values with given marginal probabilities. -/
def ofMarginals (shares : List (α × Rat)) (h : shares ≠ []) : Distribution α :=
  ⟨(layOut 0 shares).toArray, by
    simp only [List.size_toArray, length_layOut]
    exact List.length_pos_iff.2 h⟩

/-- The distribution that always yields `value`. -/
def uniform (value : α) : Distribution α :=
  ⟨#[⟨value, 1, Binary64.one⟩], by simp⟩

/-! ## Views -/

/-- The number of entries. -/
def size (d : Distribution α) : Nat := d.cells.size

/-- The values in the order of their cells. -/
def values (d : Distribution α) : List α := d.cells.toList.map (·.value)

/-- The cumulative probabilities in the order of the cells. -/
def cumulatives (d : Distribution α) : List Rat := d.cells.toList.map (·.upper)

/-- The lengths of intervals that begin at `below` and end at the given
points. -/
def steps (below : Rat) : List Rat → List Rat
  | [] => []
  | upper :: rest => (upper - below) :: steps upper rest

/-- The probability of each entry. -/
def marginals (d : Distribution α) : List Rat := steps 0 d.cumulatives

/-- The values with their probabilities. -/
def entries (d : Distribution α) : List (α × Rat) := d.values.zip d.marginals

/-- Two distributions are equal if they have the same values with the same
probabilities. -/
instance [BEq α] : BEq (Distribution α) where
  beq d e := d.values == e.values && d.cumulatives == e.cumulatives

/-- Sets the probability of a value, in place if the value is already there. -/
def record [BEq α] (v : α) (p : Rat) : List (α × Rat) → List (α × Rat)
  | [] => [(v, p)]
  | (w, q) :: rest =>
      if w == v then (w, p) :: rest else (w, q) :: record v p rest

/-- The cumulative probability of each value; of a repeated value that of its
last entry. Values stand in the order of their first entries. -/
def probabilityMap [BEq α] (d : Distribution α) : List (α × Rat) :=
  d.cells.toList.foldl (fun m c => record c.value c.upper m) []

/-! ## Lookup -/

/-- The first index in `[lo, hi)` whose threshold is above `x`, or `hi`. -/
def search (cells : Array (Cell α)) (x : Binary64) (lo hi : Nat)
    (h : hi ≤ cells.size) : Nat :=
  if hlt : lo < hi then
    let mid := (lo + hi) / 2
    have hmid : mid < cells.size := by omega
    if cells[mid].threshold.le x then search cells x (mid + 1) hi h
    else search cells x lo mid (by omega)
  else lo
termination_by hi - lo

/-- The index of the cell that a draw belongs to. Draws from one on belong to
the last cell, negative draws and `NaN` to the first. -/
def indexAt (d : Distribution α) (x : Binary64) : Nat :=
  if d.cells.size = 1 then 0
  else min (search d.cells x 0 d.cells.size (Nat.le_refl _)) (d.cells.size - 1)

/-- The cell that a draw belongs to, counted exactly: one below for every
cumulative probability that the draw reaches, and none for a draw without a
value. -/
def exactIndexAt (d : Distribution α) (x : Binary64) : Nat :=
  match x.toRat? with
  | some q => min (d.cumulatives.countP (· ≤ q)) (d.size - 1)
  | none => if x.isNaN || x.negative then 0 else d.size - 1

theorem indexAt_lt (d : Distribution α) (x : Binary64) :
    d.indexAt x < d.cells.size := by
  have hpos := d.cells_pos
  unfold indexAt
  split
  · exact hpos
  · exact Nat.lt_of_le_of_lt (Nat.min_le_right _ _) (by omega)

/-- The value that a draw belongs to. -/
def valueAt (d : Distribution α) (x : Binary64) : α :=
  have hIndex := d.indexAt_lt x
  d.cells[d.indexAt x].value

end Distribution

end ValueMix
