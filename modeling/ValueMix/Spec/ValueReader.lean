import ValueMix.Text.Blank
import ValueMix.Text.Digits

/-!
# Reading values

A value reader turns the value part of an entry, its token, into a value. It
states the pattern that a token has to match before it is read; a token can
match and still be no value, as a number that is too large.
-/

namespace ValueMix

open ValueMix.Text

/-- How the values of a distribution are written. -/
structure ValueReader (α : Type) where
  /-- The regular expression of whole tokens. -/
  pattern : String
  /-- The value of a token, if it has one. -/
  read : List Char → Option α

namespace ValueReader

/-- Non-negative decimal integers. -/
def integer : ValueReader UInt64 := ⟨"[0-9]+", readWord⟩

/-! ## Sizes -/

/-- The small letter of a capital one, as far as it matters for sizes. The
Kelvin sign counts as a capital letter K. -/
def smallLetter (c : Char) : Char := if c = '\u212a' then 'k' else c.toLower

/-- A text without a given last character, if it ends with that character. -/
def dropLast? (c : Char) (cs : List Char) : Option (List Char) :=
  if cs.getLast? = some c then some cs.dropLast else none

/-- The unit letters of sizes, each with the power of 1024 it stands for. -/
def sizeUnits : List (Char × Nat) := [('k', 1), ('m', 2), ('g', 3), ('t', 4)]

/-- The number part and the unit of a size in small letters without its final
b. -/
def sizeParts (cs : List Char) : List Char × Nat :=
  match sizeUnits.findSome? fun (c, e) =>
    (dropLast? c cs).map (·, Nat.pow 1024 e) with
  | some parts => parts
  | none => (cs, 1)

/-- A number of bytes: digits, then a unit letter or none, then the letter b or
none. Letters may be capital. -/
def readSize (cs : List Char) : Option UInt64 := do
  let small := (trim cs).map smallLetter
  let (ds, unit) := sizeParts ((dropLast? 'b' small).getD small)
  let n ← readWord ds
  let product := n.toNat * unit
  if product < UInt64.size then some (UInt64.ofNat product) else none

/-- Byte sizes with an optional binary unit: `512`, `4k`, `64KB`, `1M`. -/
def size : ValueReader UInt64 := ⟨"[0-9]+(?:[kKmMgGtT][bB]?)?", readSize⟩

/-- Identifiers: `get`, `put_if_absent`, `query.v2`. -/
def word : ValueReader String :=
  ⟨"[A-Za-z_][A-Za-z0-9_.-]*", fun cs => some (String.ofList cs)⟩

end ValueReader

end ValueMix
