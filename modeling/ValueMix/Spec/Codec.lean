import ValueMix.Distribution.Builder
import ValueMix.Distribution.Display
import ValueMix.Number.Decimal
import ValueMix.Number.Percent
import ValueMix.Pattern.Reading
import ValueMix.Spec.ValueReader

/-!
# The text form of distributions

A distribution is written as a list of entries separated by commas, with
brackets around it or without: `10%:100, 2:200, 300`. In an entry the value may
follow a colon and a number. With a percent sign the number is a fixed
percentage, else it is a weight; an entry without a number has weight one.
Blanks around any element are ignored.

A codec reads and writes this form for one kind of value. Besides reading it
offers a pattern for whole texts, so that a text can be checked before it is
read.
-/

namespace ValueMix

open ValueMix.Number
open ValueMix.Text

/-! ## Patterns -/

namespace Spec

/-- The regular expression of numbers in front of a colon. -/
def numberPattern : String := "(?:[0-9]+(?:\\.[0-9]*)?|\\.[0-9]+)"

/-- The regular expression of an entry whose token has a given one. -/
def entryPattern (token : String) : String :=
  "\\s*(?:" ++ numberPattern ++ "\\s*%?\\s*:\\s*)?(?:" ++ token ++ ")\\s*"

/-- The regular expression of a whole distribution. -/
def allowedPattern (token : String) : String :=
  "\\s*\\[?" ++ entryPattern token ++ "(?:," ++ entryPattern token ++
    ")*\\]?\\s*"

/-- A regular expression as a group of its own. -/
def grouped (pattern : String) : String := "(?:" ++ pattern ++ ")"

end Spec

/-- The reader of one kind of value with its patterns in usable form. -/
structure Codec (α : Type) where
  reader : ValueReader α
  /-- The pattern of tokens. -/
  token : Pattern
  /-- The pattern of whole distributions. -/
  spec : Pattern

namespace Codec

variable {α : Type}

/-- The codec of a value reader, unless the pattern of the reader cannot be
used. -/
def ofReader (reader : ValueReader α) : Except Error (Codec α) :=
  match Pattern.ofText? (Spec.grouped reader.pattern),
      Pattern.ofText? (Spec.grouped (Spec.allowedPattern reader.pattern)) with
  | some token, some spec => .ok ⟨reader, token, spec⟩
  | _, _ =>
      .error (.invalidPattern reader.pattern "it is not a regular expression")

/-- The regular expression of the distributions that the codec reads. -/
def allowedPattern (c : Codec α) : String :=
  Spec.allowedPattern c.reader.pattern

/-- Whether a text has the form of a distribution. It may still be refused when
it is read. -/
def accepts (c : Codec α) (text : String) : Bool := c.spec.accepts text.toList

/-! ## Reading -/

/-- The text between the brackets, or the whole text if there are none; blanks
at the ends do not count. A bracket on one side only is an error. -/
def stripBrackets? (cs : List Char) : Option (List Char) :=
  match trim cs with
  | '[' :: rest => if rest.getLast? = some ']' then some rest.dropLast else none
  | body => if body.getLast? = some ']' then none else some body

/-- The value of a token. It has to match the pattern of tokens and to be
readable. -/
def readToken (c : Codec α) (cs : List Char) : Except Error α :=
  match if c.token.accepts cs then c.reader.read cs else none with
  | some v => .ok v
  | none => .error (.unrecognizedToken (String.ofList cs) c.reader.pattern)

/-- The number in front of a colon or percent sign, or the given
malformation. -/
def readNumber (input : String) (fault : String → Malformation)
    (cs : List Char) : Except Error Rat :=
  match readDecimal cs with
  | some q => .ok q
  | none => .error (.malformed input (fault (String.ofList (trim cs))))

/-- The share that the text in front of a colon states. -/
def readShare (input : String) (entry front : List Char) :
    Except Error Share := do
  if front.contains '%' then
    if (trim (after '%' front)).isEmpty then
      let percent ← readNumber input .invalidPercentage (before '%' front)
      return .fixed (ofPercent percent)
    else throw (.malformed input (.strayText (String.ofList entry)))
  else
    let weight ← readNumber input .invalidWeight front
    return .weighted weight

/-- The entry that a piece of text states; `input` is the text of the whole
distribution. -/
def readEntry (c : Codec α) (input : String) (piece : List Char) :
    Except Error (Entry α) := do
  let entry := trim piece
  if entry.isEmpty then throw (.malformed input .emptyEntry)
  else if entry.contains ':' then
    let token := trim (after ':' entry)
    if token.isEmpty then
      throw (.malformed input (.missingValue (String.ofList entry)))
    else
      let share ← readShare input entry (before ':' entry)
      let value ← c.readToken token
      return ⟨value, share⟩
  else
    let value ← c.readToken entry
    return ⟨value, .weighted 1⟩

/-- The entries that a text states. Weights and probabilities may be out of
range. -/
def readEntries (c : Codec α) (text : String) : Except Error (List (Entry α)) :=
  match stripBrackets? text.toList with
  | none => .error (.malformed text .unbalancedBrackets)
  | some body =>
      if (trim body).isEmpty then .error .noEntries
      else (pieces ',' body).mapM (c.readEntry text)

/-- The distribution that a text states. -/
def read (c : Codec α) (text : String) : Except Error (Distribution α) := do
  let entries ← c.readEntries text
  Distribution.ofEntries entries

/-! ## Writing -/

/-- The text of a distribution with percentages of one decimal. An entry that is
too small to show is written with a percentage of zero, which cannot be read
back. -/
def write [ToString α] (_ : Codec α) (d : Distribution α) : String := d.text

end Codec

end ValueMix
