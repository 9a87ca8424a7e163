import ValueMix.Binary64.Basic

/-!
# Rounding to binary64

`roundMagnitude` rounds a quotient of natural numbers to the nearest binary64
magnitude. A quotient half-way between two magnitudes goes to the even one, and
quotients too large for the format go to infinity. The other operations are
exact in the rational numbers and round once.
-/

namespace ValueMix.Binary64

/-- The nearest integer to `n / d`; halves go to the even neighbour. -/
def divNearestEven (n d : Nat) : Nat :=
  let q := n / d
  let twice := 2 * (n % d)
  if twice < d then q
  else if d < twice then q + 1
  else if q % 2 = 0 then q else q + 1

/-- The exponent `e` with `2 ^ e ≤ n / d < 2 ^ (e + 1)`, for positive `n` and
`d`. -/
def floorLog2 (n d : Nat) : Int :=
  let guess : Int := (n.log2 : Int) - d.log2
  let reaches : Bool :=
    if 0 ≤ guess then d * Nat.pow 2 guess.toNat ≤ n
    else d ≤ n * Nat.pow 2 (-guess).toNat
  if reaches then guess else guess - 1

/-- The magnitude nearest to `n / d`, for positive `d`. -/
def roundMagnitude (n d : Nat) : Nat :=
  if n = 0 then 0
  else
    let unit : Int := max (floorLog2 n d - 52) (-1074)
    let s := if 0 ≤ unit then divNearestEven n (d * Nat.pow 2 unit.toNat)
      else divNearestEven (n * Nat.pow 2 (-unit).toNat) d
    min ((unit + 1074).toNat * fractionCount + s) infinityMagnitude

/-- The number nearest to a rational; zero is positive. -/
def ofRat (q : Rat) : Binary64 :=
  ofMagnitude (q < 0) (roundMagnitude q.num.natAbs q.den)

/-- The number nearest to a natural number. -/
def ofNat (n : Nat) : Binary64 := ofMagnitude false (roundMagnitude n 1)

/-- The number nearest to an integer. -/
def ofInt (n : Int) : Binary64 :=
  ofMagnitude (n < 0) (roundMagnitude n.natAbs 1)

/-! ## Arithmetic -/

/-- The number without its sign. -/
def abs (x : Binary64) : Binary64 := ofMagnitude false x.magnitude

/-- The number with the opposite sign. -/
def neg (x : Binary64) : Binary64 := ofMagnitude (!x.negative) x.magnitude

/-- The sum of two numbers. Opposite infinities have none; exact zeros are
positive unless both operands are negative. -/
def add (x y : Binary64) : Binary64 :=
  if x.isNaN || y.isNaN then nan
  else if x.isInfinite then
    if y.isInfinite && x.negative != y.negative then nan else x
  else if y.isInfinite then y
  else
    let q := x.toRat + y.toRat
    if q = 0 then ofMagnitude (x.negative && y.negative) 0 else ofRat q

/-- The difference of two numbers. -/
def sub (x y : Binary64) : Binary64 := add x (neg y)

/-- The product of two numbers. Zero times infinity has none. -/
def mul (x y : Binary64) : Binary64 :=
  let sign := x.negative != y.negative
  if x.isNaN || y.isNaN then nan
  else if x.isInfinite || y.isInfinite then
    if x.isZero || y.isZero then nan else ofMagnitude sign infinityMagnitude
  else
    let q := valueOf x.magnitude * valueOf y.magnitude
    ofMagnitude sign (roundMagnitude q.num.natAbs q.den)

/-- The quotient of two numbers. Zero by zero and infinity by infinity have
none; anything else by zero is infinite. -/
def div (x y : Binary64) : Binary64 :=
  let sign := x.negative != y.negative
  if x.isNaN || y.isNaN then nan
  else if x.isInfinite then
    if y.isInfinite then nan else ofMagnitude sign infinityMagnitude
  else if y.isInfinite then ofMagnitude sign 0
  else if y.isZero then
    if x.isZero then nan else ofMagnitude sign infinityMagnitude
  else
    let q := valueOf x.magnitude / valueOf y.magnitude
    ofMagnitude sign (roundMagnitude q.num.natAbs q.den)

/-- The larger of two numbers; `NaN` never wins. -/
def max (x y : Binary64) : Binary64 :=
  if x.isNaN then y else if y.isNaN then x else if x.le y then y else x

/-- The quotient of a rational number's numerator and denominator, each rounded
before the division. It is near the number, and not always the nearest. -/
def quotient (q : Rat) : Binary64 := div (ofInt q.num) (ofNat q.den)

/-- The uniform draw in `[0, 1)` made from a random word: its upper 53 bits, as
a fraction. -/
def ofDraw (w : UInt64) : Binary64 :=
  ofMagnitude false (roundMagnitude (w >>> 11).toNat (2 * fractionCount))

end ValueMix.Binary64
