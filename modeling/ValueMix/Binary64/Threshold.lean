import ValueMix.Binary64.Rounding

/-!
# Thresholds

The threshold of a rational number `p` is the least binary64 number that is not
below it. So a number `x` reaches `p` exactly when it reaches the threshold of
`p`, and a table of exact probabilities can be searched with comparisons of
floating-point numbers.

The search starts at an estimate, goes up while it is below `p` and then down
while its predecessor is not. It ends at the same place wherever it starts.
-/

namespace ValueMix.Binary64

/-- The first finite magnitude from `m` on whose value is not below `p`, or the
largest one. -/
def ascend (p : Rat) (m : Nat) : Nat :=
  if m + 1 < infinityMagnitude ∧ valueOf m < p then ascend p (m + 1) else m
termination_by infinityMagnitude - m

/-- The last magnitude on the way down from `m` whose predecessor is below `p`,
or zero. -/
def descend (p : Rat) : Nat → Nat
  | 0 => 0
  | m + 1 => if p ≤ valueOf m then descend p m else m + 1

/-- Where the search for a threshold begins: at the estimate if that is finite
and not negative, else at zero. -/
def searchStart (estimate : Binary64) : Binary64 :=
  if estimate.isFinite && !estimate.lt zero then estimate else zero

/-- The threshold of `p`, searched from an estimate. A negative zero is an
estimate of negative numbers only, and stays as it is. -/
def thresholdFrom (estimate : Binary64) (p : Rat) : Binary64 :=
  let start := searchStart estimate
  if start.negative then start
  else ofMagnitude false (descend p (ascend p start.magnitude))

/-- The least number that is not below `p`. -/
def threshold (p : Rat) : Binary64 := thresholdFrom (quotient p) p

end ValueMix.Binary64
