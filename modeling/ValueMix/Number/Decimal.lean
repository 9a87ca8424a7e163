import ValueMix.Text.Blank
import ValueMix.Text.Pieces
import ValueMix.Text.Digits

/-!
# Decimal numbers

A decimal number is an optional sign, digits with at most one point among them,
and at least one digit in all: `12`, `0.25`, `.5`, `5.`, `-3`. Blanks around it
are ignored and there is no exponent. Its value is the exact rational number,
however many digits there are.
-/

namespace ValueMix.Number

open ValueMix.Text

/-- The value of a decimal number without sign. -/
def readUnsigned (cs : List Char) : Option Rat :=
  let whole := before '.' cs
  let fraction := after '.' cs
  if whole.isEmpty && fraction.isEmpty then none
  else if allDigits whole && allDigits fraction then
    some (mkRat (digitsValue (whole ++ fraction)) (Nat.pow 10 fraction.length))
  else none

/-- The value of a decimal number with an optional sign. -/
def readSigned : List Char → Option Rat
  | '-' :: rest => (readUnsigned rest).map fun q => -q
  | '+' :: rest => readUnsigned rest
  | cs => readUnsigned cs

/-- Reads a decimal number; blanks around it do not matter. -/
def readDecimal (cs : List Char) : Option Rat := readSigned (trim cs)

end ValueMix.Number
