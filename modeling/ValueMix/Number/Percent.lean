import ValueMix.Number.RatioText

/-!
# Percentages with one decimal

Probabilities are shown in tenths of a percent. A single probability is rounded
to the nearest tenth. A list of probabilities that belong together is rounded by
largest remainders: every part is first rounded down, and the tenths still
missing from the rounded total go to the parts with the largest remainders,
earlier parts first. So the parts shown add up to the total shown.
-/

namespace ValueMix.Number

open ValueMix.Text

/-- The probability that a percentage stands for. -/
def ofPercent (percent : Rat) : Rat := percent / 100

/-- The nearest integer; halves go away from zero. -/
def roundHalfAway (q : Rat) : Int :=
  if q < 0 then -((-q + 1 / 2).floor) else (q + 1 / 2).floor

/-- The integer part, towards zero. -/
def truncate (q : Rat) : Int := if q < 0 then -((-q).floor) else q.floor

/-- What is left of a number without its integer part; it has the sign of the
number. -/
def remainder (q : Rat) : Rat := q - truncate q

/-- A probability in tenths of a percent, without rounding. -/
def inTenths (p : Rat) : Rat := p * 1000

/-- The text of a number of tenths: one digit follows the point. -/
def tenthsText (t : Int) : String :=
  signed (t < 0) (toString (t.natAbs / 10) ++ "." ++ toString (t.natAbs % 10))

/-- A probability as a percentage with one decimal, halves rounded away from
zero. -/
def percentText (p : Rat) : String := tenthsText (roundHalfAway (inTenths p))

/-! ## Apportionment -/

/-- The tenths that rounding every part down loses from the rounded total. -/
def shortage (parts : List Rat) : Nat :=
  let total := parts.foldr (· + ·) 0
  let assigned := (parts.map fun p => (inTenths p).floor).foldr (· + ·) 0
  (roundHalfAway (inTenths total) - assigned).toNat

/-- The positions of the parts, those with the largest remainders first; equal
remainders keep their order. -/
def byRemainder (parts : List Rat) : List Nat :=
  let remainders := parts.map fun p => remainder (inTenths p)
  (remainders.zipIdx.mergeSort fun a b => b.1 ≤ a.1).map Prod.snd

/-- The positions of the parts that are rounded up. -/
def roundedUp (parts : List Rat) : List Nat :=
  (byRemainder parts).take (shortage parts)

/-- The tenths of a percent shown for each part. -/
def apportion (parts : List Rat) : List Int :=
  let up := roundedUp parts
  parts.zipIdx.map fun (p, i) => (inTenths p).floor + if i ∈ up then 1 else 0

/-- The percentages shown for parts that belong together. -/
def apportionedTexts (parts : List Rat) : List String :=
  (apportion parts).map tenthsText

@[simp] theorem length_apportion (parts : List Rat) :
    (apportion parts).length = parts.length := by
  simp [apportion]

end ValueMix.Number
