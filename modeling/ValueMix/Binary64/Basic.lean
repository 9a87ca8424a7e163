/-!
# Binary64 numbers

The numbers of the binary64 format, as words of 64 bits: a sign bit, eleven bits
of exponent and fifty-two of fraction. Without the sign bit a word is the
*magnitude* of the number. Finite magnitudes are in the order of their values,
the next one is infinity, and all larger ones are `NaN`.

A finite number has an exact rational value (`toRat?`). Everything that this
library says about floating point goes through that value or through the
magnitudes, never through the arithmetic of the machine.
-/

namespace ValueMix

/-- A number of the binary64 format, given by its bits. -/
structure Binary64 where
  bits : UInt64
  deriving DecidableEq

namespace Binary64

/-- The magnitude of infinity, which is also the number of finite magnitudes. -/
def infinityMagnitude : Nat := 0x7ff0000000000000

/-- The sign bit as a number, which is also the number of magnitudes. -/
def signWeight : Nat := 0x8000000000000000

/-- Whether the sign bit is set. -/
def negative (x : Binary64) : Bool := signWeight ≤ x.bits.toNat

/-- The bits without the sign. -/
def magnitude (x : Binary64) : Nat := x.bits.toNat % signWeight

/-- The number with a given sign and magnitude. -/
def ofMagnitude (negative : Bool) (m : Nat) : Binary64 :=
  ⟨UInt64.ofNat (if negative then signWeight + m else m)⟩

def zero : Binary64 := ofMagnitude false 0
def one : Binary64 := ofMagnitude false 0x3ff0000000000000

/-- The result of operations that have none. -/
def nan : Binary64 := ofMagnitude false 0x7ff8000000000000

def isFinite (x : Binary64) : Bool := x.magnitude < infinityMagnitude
def isInfinite (x : Binary64) : Bool := x.magnitude = infinityMagnitude
def isNaN (x : Binary64) : Bool := infinityMagnitude < x.magnitude
def isZero (x : Binary64) : Bool := x.magnitude = 0

/-! ## Values -/

/-- The number of fractions, which is the number of magnitudes with the same
exponent. -/
def fractionCount : Nat := 0x10000000000000

/-- The exponent field of a magnitude. -/
def exponentField (m : Nat) : Nat := m / fractionCount

/-- The integer that a finite magnitude multiplies a power of two with. -/
def significand (m : Nat) : Nat :=
  if exponentField m = 0 then m else fractionCount + m % fractionCount

/-- How many times that power of two doubles `2 ^ -1074`, the least positive
value. -/
def scale (m : Nat) : Nat := exponentField m - 1

/-- The value of a finite magnitude. -/
def valueOf (m : Nat) : Rat :=
  if scale m < 1074 then mkRat (significand m) (Nat.pow 2 (1074 - scale m))
  else ((significand m * Nat.pow 2 (scale m - 1074) : Nat) : Rat)

/-- The exact value of a finite number. -/
def toRat? (x : Binary64) : Option Rat :=
  if x.isFinite then
    some (if x.negative then -valueOf x.magnitude else valueOf x.magnitude)
  else none

/-- The exact value of a finite number, and zero for infinities and `NaN`. -/
def toRat (x : Binary64) : Rat := x.toRat?.getD 0

/-! ## Order -/

/-- The place of a number in the order of all numbers but `NaN`; both zeros have
the same place. -/
def place (x : Binary64) : Int :=
  if x.negative then -(x.magnitude : Int) else x.magnitude

/-- Comparison as numbers: nothing is comparable with `NaN`. -/
def le (x y : Binary64) : Bool := !x.isNaN && !y.isNaN && x.place ≤ y.place

/-- Strict comparison as numbers. -/
def lt (x y : Binary64) : Bool := !x.isNaN && !y.isNaN && x.place < y.place

end Binary64

end ValueMix
