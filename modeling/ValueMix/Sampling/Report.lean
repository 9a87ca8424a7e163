import ValueMix.Sampling.Draw

/-!
# Sampling reports

A report compares how often every entry was drawn with how often it should be.
Entries are counted by position, so a value that is listed twice has two rows.
Percentages are binary64 numbers.
-/

namespace ValueMix

/-- Expected and observed frequency of one entry. -/
structure ReportRow where
  value : String
  expected : Binary64
  observed : Binary64
  count : Nat
  deriving DecidableEq

/-- The outcome of a number of draws. -/
structure Report where
  samples : Nat
  rows : List ReportRow
  deriving DecidableEq

namespace Report

/-- The binary64 number one hundred. -/
def hundred : Binary64 := .ofNat 100

/-- A probability in percent. -/
def expectedPercent (p : Rat) : Binary64 := (Binary64.quotient p).mul hundred

/-- A count in percent of all draws, or zero if there are none. -/
def observedPercent (count samples : Nat) : Binary64 :=
  if samples = 0 then .zero
  else ((Binary64.ofNat count).mul hundred).div (.ofNat samples)

/-- The report on given counts. -/
def ofCounts {α : Type} [ToString α] (d : Distribution α) (samples : Nat)
    (counts : List Nat) : Report :=
  ⟨samples, (d.entries.zip counts).map fun ((v, p), n) =>
    ⟨toString v, expectedPercent p, observedPercent n samples, n⟩⟩

/-- Draws `samples` values and reports on them. -/
@[specialize] def collect {α σ : Type} [ToString α] [WordSource σ]
    (d : Distribution α) (samples : Nat) (source : σ) : Report × σ :=
  let (counts, rest) := d.tally samples (Array.replicate d.size 0) source
  (ofCounts d samples counts.toList, rest)

/-- The difference between the observed and the expected percentage, without
sign. -/
def deviation (row : ReportRow) : Binary64 :=
  (row.observed.sub row.expected).abs

/-- The largest deviation of all rows. A deviation that is no number is
ignored. -/
def maxDeviation (r : Report) : Binary64 :=
  r.rows.foldl (fun largest row => largest.max (deviation row)) .zero

end Report

end ValueMix
