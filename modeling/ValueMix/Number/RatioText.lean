import ValueMix.Text.Digits

/-!
# Rational numbers as text

A rational number that has at most eighteen decimal places is written as a
decimal number with as few places as possible; any other is written as a reduced
fraction `n/d`.
-/

namespace ValueMix.Number

open ValueMix.Text

/-- The quotient of two integers, unless the second is zero. -/
def ratio? (n d : Int) : Option Rat :=
  if d = 0 then none else some (Rat.divInt n d)

/-- The most decimal places that a number is written with. -/
def placesLimit : Nat := 18

/-- The least number of decimal places that is enough to write `q` exactly, if
the limit allows. -/
def places? (q : Rat) : Option Nat :=
  (List.range (placesLimit + 1)).find? fun k => (q * 10 ^ k).den == 1

/-- Digits with leading zeros up to a given length. -/
def zeroPadded (width : Nat) (ds : List Char) : List Char :=
  List.replicate (width - ds.length) '0' ++ ds

/-- The decimal text of the natural number `n` divided by `10 ^ places`. -/
def scaledText (n places : Nat) : String :=
  let ds := zeroPadded (places + 1) (digits n)
  let whole := ds.take (ds.length - places)
  if places = 0 then String.ofList whole
  else String.ofList (whole ++ '.' :: ds.drop (ds.length - places))

/-- A minus sign in front of the text of a negative number. -/
def signed (negative : Bool) (text : String) : String :=
  if negative then "-" ++ text else text

/-- The text of a rational number: a decimal number if that is exact, else a
fraction. -/
def ratioText (q : Rat) : String :=
  match places? q with
  | some k => signed (q < 0) (scaledText (q * 10 ^ k).num.natAbs k)
  | none => toString q.num ++ "/" ++ toString q.den

end ValueMix.Number
