/-!
# Digits

Reading and writing of natural numbers in base ten. Digits are the ten ASCII
digits only. `readRadix` reads other bases, in which the letters from a to f
stand for the digits behind nine.

`grouped` is the text of a number with a comma between groups of three digits,
counted from the right.
-/

namespace ValueMix.Text

/-- The number that a digit stands for. -/
def digitValue (c : Char) : Nat := c.toNat - '0'.toNat

/-- The number written by a string of digits, most significant first. -/
def digitsValue (cs : List Char) : Nat :=
  cs.foldl (fun n c => 10 * n + digitValue c) 0

/-- Whether a text consists of digits only; so does the empty text. -/
def allDigits (cs : List Char) : Bool := cs.all Char.isDigit

/-- The digits of a number, most significant first, without leading zeros. -/
def digits (n : Nat) : List Char := Nat.toDigits 10 n

/-- Reads a word of 64 bits: digits with an optional plus sign in front, and a
value that fits. -/
def readWord (cs : List Char) : Option UInt64 :=
  let ds := match cs with
    | '+' :: rest => rest
    | _ => cs
  if ds.isEmpty || !allDigits ds then none
  else
    let n := digitsValue ds
    if n < UInt64.size then some (UInt64.ofNat n) else none

/-- The number that a digit of some base up to sixteen stands for. -/
def radixDigit? (c : Char) : Option Nat :=
  if c.isDigit then some (digitValue c)
  else if 'a' ≤ c && c ≤ 'f' then some (c.toNat - 'a'.toNat + 10)
  else if 'A' ≤ c && c ≤ 'F' then some (c.toNat - 'A'.toNat + 10)
  else none

/-- The number written by digits of a base up to sixteen; none for a digit that
the base lacks. -/
def readRadix (base : Nat) (cs : List Char) : Option Nat :=
  cs.foldlM (fun n c => do
    let d ← radixDigit? c
    if d < base then some (base * n + d) else none) 0

/-- A comma in front of every digit whose distance from the right end is a
positive multiple of three. -/
def groupThousands : List Char → List Char
  | [] => []
  | c :: rest =>
      if rest.length % 3 = 0 && !rest.isEmpty then
        c :: ',' :: groupThousands rest
      else c :: groupThousands rest

/-- The decimal text of a number with its thousands separated by commas. -/
def grouped (n : Nat) : String := String.ofList (groupThousands (digits n))

end ValueMix.Text
