import ValueMix.Binary64.Rounding
import ValueMix.Text.Digits
import ValueMix.Text.Pieces
import ValueMix.Toml.Value

/-!
# Numbers, booleans and dates

Values without quotation marks and brackets are words: runs of letters, digits
and the marks that numbers and dates need. A blank between a date and a time
belongs to the word. Single underscores may stand between digits.

Integers have 64 bits with sign. A float that is too large for the format is
refused if it is positive and infinite if it is negative.
-/

namespace ValueMix.Toml

open ValueMix.Text

/-! ## Numbers -/

/-- Digits without the underscores between them. -/
def ungrouped? (cs : List Char) : Option (List Char) :=
  let groups := pieces '_' cs
  if groups.any List.isEmpty then none else some groups.flatten

/-- Decimal digits without the underscores between them. -/
def decimalDigits? (cs : List Char) : Option (List Char) := do
  let ds ← ungrouped? cs
  if allDigits ds then some ds else none

/-- Decimal digits without needless zeros in front. -/
def wholeDigits? (cs : List Char) : Option (List Char) := do
  let ds ← decimalDigits? cs
  if ds.head? = some '0' && 1 < ds.length then none else some ds

/-- Whether a number has a minus sign, and the number without its sign. -/
def splitSign : List Char → Bool × List Char
  | '-' :: rest => (true, rest)
  | '+' :: rest => (false, rest)
  | cs => (false, cs)

/-- The negative of a number if there is a minus sign. -/
def withSign (negative : Bool) (n : Nat) : Int :=
  if negative then -(n : Int) else n

/-- The value of an integer, of any size. -/
def unboundedInteger? : List Char → Option Int
  | '0' :: 'x' :: rest => do
      let n ← readRadix 16 (← ungrouped? rest)
      some n
  | '0' :: 'o' :: rest => do
      let n ← readRadix 8 (← ungrouped? rest)
      some n
  | '0' :: 'b' :: rest => do
      let n ← readRadix 2 (← ungrouped? rest)
      some n
  | cs => do
      let (negative, rest) := splitSign cs
      let ds ← wholeDigits? rest
      some (withSign negative (digitsValue ds))

/-- The value of an integer with 64 bits. -/
def integer? (cs : List Char) : Option Int := do
  let n ← unboundedInteger? cs
  if -0x8000000000000000 ≤ n ∧ n < 0x8000000000000000 then some n else none

/-- The magnitude nearest to `n * 10 ^ e`. Beyond a thousand places the outcome
is clear without computing the power. -/
def decimalMagnitude (n : Nat) (e : Int) : Nat :=
  let places := (digits n).length + e
  if n = 0 ∨ places < -1000 then 0
  else if 1000 < places then Binary64.infinityMagnitude
  else if 0 ≤ e then Binary64.roundMagnitude (n * Nat.pow 10 e.toNat) 1
  else Binary64.roundMagnitude n (Nat.pow 10 (-e).toNat)

/-- Whether a character is the letter in front of an exponent. -/
def isExponentMark (c : Char) : Bool := c = 'e' || c = 'E'

/-- The value of an exponent, from its letter on. -/
def exponent? : List Char → Option Int
  | [] => some 0
  | _ :: rest => do
      let (negative, rest) := splitSign rest
      let ds ← decimalDigits? rest
      some (withSign negative (digitsValue ds))

/-- The magnitude of a float that has a fraction, an exponent or both. -/
def floatMagnitude? (cs : List Char) : Option Nat := do
  let mantissa := cs.takeWhile fun c => !isExponentMark c
  let power := cs.dropWhile fun c => !isExponentMark c
  let whole ← wholeDigits? (before '.' mantissa)
  let fraction ←
    if mantissa.contains '.' then decimalDigits? (after '.' mantissa)
    else if power.isEmpty then none else some []
  let e ← exponent? power
  some (decimalMagnitude (digitsValue (whole ++ fraction))
    (e - fraction.length))

/-- The value of a float. -/
def float? (cs : List Char) : Option Binary64 := do
  let (negative, rest) := splitSign cs
  if rest = ['i', 'n', 'f'] then
    some (.ofMagnitude negative Binary64.infinityMagnitude)
  else if rest = ['n', 'a', 'n'] then
    some (.ofMagnitude negative Binary64.nan.magnitude)
  else
    let m ← floatMagnitude? rest
    if m = Binary64.infinityMagnitude && !negative then none
    else some (.ofMagnitude negative m)

/-! ## Dates and times -/

/-- A number of two digits within bounds at the beginning of a text, and the
text behind it. -/
def twoDigits? (low high : Nat) : List Char → Option (Nat × List Char)
  | a :: b :: rest =>
      let n := digitsValue [a, b]
      if allDigits [a, b] && low ≤ n && n ≤ high then some (n, rest) else none
  | _ => none

/-- The text behind a given character. -/
def behind? (c : Char) : List Char → Option (List Char)
  | d :: rest => if d = c then some rest else none
  | [] => none

/-- Whether a year has a day more than others. -/
def isLeapYear (year : Nat) : Bool :=
  year % 4 = 0 && (year % 100 ≠ 0 || year % 400 = 0)

/-- The number of days of a month. -/
def daysIn (year month : Nat) : Nat :=
  if month = 2 then if isLeapYear year then 29 else 28
  else if month ∈ [4, 6, 9, 11] then 30
  else 31

/-- The text behind a date. -/
def behindDate? (cs : List Char) : Option (List Char) := do
  let year := cs.take 4
  if year.length ≠ 4 || !allDigits year then none
  else
    let (month, rest) ← twoDigits? 1 12 (← behind? '-' (cs.drop 4))
    let (_, rest) ←
      twoDigits? 1 (daysIn (digitsValue year) month) (← behind? '-' rest)
    some rest

/-- The text behind a fraction of a second, if there is one. -/
def behindFraction? : List Char → Option (List Char)
  | '.' :: rest =>
      if (rest.head?.any Char.isDigit) then some (rest.dropWhile Char.isDigit)
      else none
  | cs => some cs

/-- The text behind a time. There may be a leap second. -/
def behindTime? (cs : List Char) : Option (List Char) := do
  let (_, rest) ← twoDigits? 0 23 cs
  let (_, rest) ← twoDigits? 0 59 (← behind? ':' rest)
  let (_, rest) ← twoDigits? 0 60 (← behind? ':' rest)
  behindFraction? rest

/-- Whether a text is an offset from universal time, or empty. -/
def isOffset : List Char → Bool
  | [] => true
  | ['Z'] => true
  | ['z'] => true
  | c :: rest =>
      (c = '+' || c = '-') &&
        match twoDigits? 0 23 rest with
        | some (_, ':' :: rest) => (twoDigits? 0 59 rest).map Prod.snd = some []
        | _ => false

/-- Whether a text is a time with or without an offset. -/
def isOffsetTime (cs : List Char) : Bool := (behindTime? cs).any isOffset

/-- Whether a text is a date, a time, or both with or without an offset. -/
def isDateTime (cs : List Char) : Bool :=
  match behindDate? cs with
  | some [] => true
  | some (c :: rest) => (c = 'T' || c = 't' || c = ' ') && isOffsetTime rest
  | none => behindTime? cs = some []

/-! ## Words -/

/-- The value of a word. -/
def wordValue? (cs : List Char) : Option Value :=
  if cs = ['t', 'r', 'u', 'e'] then some (.boolean true)
  else if cs = ['f', 'a', 'l', 's', 'e'] then some (.boolean false)
  else if isDateTime cs then some (.dateTime (String.ofList cs))
  else ((integer? cs).map .integer).or ((float? cs).map .float)

/-- The characters of words. -/
def isWordChar (c : Char) : Bool :=
  c.isAlphanum || ['_', '+', '-', '.', ':'].contains c

/-- The word at the beginning of a text, and the text behind it. -/
def splitWord (cs : List Char) : List Char × List Char :=
  let word := cs.takeWhile isWordChar
  match cs.dropWhile isWordChar with
  | ' ' :: rest =>
      if behindDate? word = some [] && rest.head?.any Char.isDigit then
        (word ++ ' ' :: rest.takeWhile isWordChar, rest.dropWhile isWordChar)
      else (word, ' ' :: rest)
  | rest => (word, rest)

/-- The value of the word at the beginning of a text, and the text behind it. -/
def scalar? (cs : List Char) : Option (Value × List Char) :=
  let (word, rest) := splitWord cs
  (wordValue? word).map fun v => (v, rest)

end ValueMix.Toml
