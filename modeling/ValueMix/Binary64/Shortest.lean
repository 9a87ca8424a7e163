import ValueMix.Binary64.Rounding

/-!
# Binary64 numbers as decimal text

`shortest` finds the decimal number with the fewest digits that rounds back to a
given magnitude; among those it takes the nearest, and of two equally near the
one with an even last digit. `fixedText` writes a number with a given number of
decimal places, rounded from its exact value, halves to the even neighbour.
-/

namespace ValueMix.Binary64

/-! ## Shortest digits -/

/-- A decimal number `digits * 10 ^ exponent`. -/
structure PowerForm where
  digits : Nat
  exponent : Int
  deriving DecidableEq

/-- Whether `n / d` rounds to the finite magnitude `m`, for positive `d`. -/
def roundsTo (m n d : Nat) : Bool := roundMagnitude n d = m

/-- A power of ten as numerator and denominator. -/
def tenPower (e : Int) : Nat × Nat :=
  if 0 ≤ e then (Nat.pow 10 e.toNat, 1) else (1, Nat.pow 10 (-e).toNat)

/-- The decimal number with unit `10 ^ e` that is nearest to `q` among the two
next to it, unless neither rounds to `m`. -/
def onGrid? (m : Nat) (q : Rat) (e : Int) : Option PowerForm :=
  let (un, ud) := tenPower e
  let n := q.num.natAbs * ud
  let d := q.den * un
  let low := n / d
  let lowFits := roundsTo m (low * un) ud
  let highFits := roundsTo m ((low + 1) * un) ud
  if lowFits && highFits then some ⟨divNearestEven n d, e⟩
  else if lowFits then some ⟨low, e⟩
  else if highFits then some ⟨low + 1, e⟩
  else none

/-- The exponent `e` with `10 ^ e ≤ q < 10 ^ (e + 1)`, for positive `q`. -/
def floorLog10 (q : Rat) : Int :=
  let digitCount (n : Nat) : Int := (Nat.toDigits 10 n).length
  let guess := digitCount q.num.natAbs - digitCount q.den
  let (un, ud) := tenPower guess
  if un * q.den ≤ q.num.natAbs * ud then guess else guess - 1

/-- A decimal number without zeros at the end of its digits. -/
def PowerForm.stripped (x : PowerForm) : PowerForm :=
  strip 17 x
where
  strip : Nat → PowerForm → PowerForm
    | 0, x => x
    | k + 1, x =>
        if x.digits % 10 = 0 then strip k ⟨x.digits / 10, x.exponent + 1⟩ else x

/-- The shortest decimal number that rounds to a positive finite magnitude.
Seventeen digits are always enough. -/
def shortest (m : Nat) : PowerForm :=
  let q := valueOf m
  let e := floorLog10 q
  let found := (List.range 17).findSome? fun (k : Nat) =>
    onGrid? m q (e - (k : Int))
  (found.getD ⟨divNearestEven q.num.natAbs q.den, 0⟩).stripped

/-! ## Texts -/

/-- The minus sign of a number whose sign bit is set. -/
def signText (x : Binary64) : String := if x.negative then "-" else ""

/-- Digits with a point behind the first `whole` of them, and a zero where a
side is empty. -/
def pointText (ds : List Char) (whole : Int) : String :=
  if whole ≤ 0 then
    String.ofList ('0' :: '.' :: (List.replicate (-whole).toNat '0' ++ ds))
  else
    let w := whole.toNat
    if ds.length ≤ w then
      String.ofList (ds ++ List.replicate (w - ds.length) '0' ++ ['.', '0'])
    else String.ofList (ds.take w ++ '.' :: ds.drop w)

/-- Digits in scientific notation; `e` is the exponent of the first digit. -/
def scientificText (ds : List Char) (e : Int) : String :=
  let mantissa := match ds with
    | [] => []
    | [c] => [c]
    | c :: rest => c :: '.' :: rest
  let exponent := if e < 0 then "e-" else "e+"
  String.ofList mantissa ++ exponent ++ toString e.natAbs

/-- The least and the largest exponent of the first digit that are written
without exponent. -/
def plainExponents : Int × Int := (-5, 15)

/-- The shortest text of a finite number. -/
def shortestText (x : Binary64) : String :=
  if x.isZero then signText x ++ "0.0"
  else
    let s := shortest x.magnitude
    let ds := Nat.toDigits 10 s.digits
    let e := s.exponent + ds.length - 1
    signText x ++
      if plainExponents.1 ≤ e && e ≤ plainExponents.2 then pointText ds (e + 1)
      else scientificText ds e

/-- The text of a number with a fixed number of decimal places. -/
def fixedText (placeCount : Nat) (x : Binary64) : String :=
  if x.isNaN then "NaN"
  else if x.isInfinite then signText x ++ "inf"
  else
    let q := valueOf x.magnitude
    let n := divNearestEven (q.num.natAbs * Nat.pow 10 placeCount) q.den
    let ds := Nat.toDigits 10 n
    let padded := List.replicate (placeCount + 1 - ds.length) '0' ++ ds
    let w := padded.length - placeCount
    signText x ++
      if placeCount = 0 then String.ofList padded
      else String.ofList (padded.take w ++ '.' :: padded.drop w)

end ValueMix.Binary64
