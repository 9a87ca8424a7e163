import ValueMix.Pattern.Basic
import ValueMix.Text.Digits

/-!
# The written form of patterns

Patterns are written as regular expressions. A character stands for itself; `.`
is any character in a line; `\s` is white space, and a backslash in front of a
punctuation mark makes it stand for itself; `[a-z_]` and `[^a-z_]` are classes.
`(…)` and `(?:…)` group, `|` separates alternatives, and `*`, `+`, `?`, `{n}`,
`{n,}`, `{n,m}` repeat what stands before them. A `?` behind a repetition only
states which match is preferred, so it changes nothing for whole texts.

Reading goes in two steps: the text is cut into tokens, and the tokens are
assembled with a stack of open groups.
-/

namespace ValueMix.Pattern

open ValueMix.Text

/-- The parts of a written pattern. -/
inductive Token where
  | piece (p : Pattern)
  | opening
  | closing
  | bar
  | repetition (low : Nat) (high : Option Nat)
  deriving DecidableEq

/-! ## Cutting into tokens -/

/-- The characters that a backslash and a character stand for. -/
def escapedRanges? (c : Char) : Option (List (Nat × Nat)) :=
  if c = 's' then some blankRanges
  else if c = 'n' then some [(10, 10)]
  else if c = 'r' then some [(13, 13)]
  else if c = 't' then some [(9, 9)]
  else if c.isAlphanum || 128 ≤ c.toNat then none
  else some [(c.toNat, c.toNat)]

/-- The ranges of a class up to its closing bracket, and the text behind it. -/
def classBody : List Char → Option (List (Nat × Nat) × List Char)
  | [] => none
  | ']' :: rest => some ([], rest)
  | '[' :: _ => none
  | '\\' :: c :: rest => do
      let ranges ← escapedRanges? c
      let (more, tail) ← classBody rest
      some (ranges ++ more, tail)
  | a :: '-' :: b :: rest =>
      if b = ']' then some ([(a.toNat, a.toNat), ('-'.toNat, '-'.toNat)], rest)
      else if b = '\\' || b = '[' || b.toNat < a.toNat then none
      else do
        let (more, tail) ← classBody rest
        some ((a.toNat, b.toNat) :: more, tail)
  | a :: rest => do
      let (more, tail) ← classBody rest
      some ((a.toNat, a.toNat) :: more, tail)

/-- The ranges of a class; a closing bracket at its beginning stands for
itself. -/
def classRanges : List Char → Option (List (Nat × Nat) × List Char)
  | ']' :: rest => do
      let (more, tail) ← classBody rest
      some ((']'.toNat, ']'.toNat) :: more, tail)
  | cs => classBody cs

/-- The set of a class behind its opening bracket, and the text behind the
class. -/
def charClass : List Char → Option (CharSet × List Char)
  | '^' :: rest =>
      (classRanges rest).map fun (ranges, tail) => (⟨ranges, true⟩, tail)
  | cs => (classRanges cs).map fun (ranges, tail) => (⟨ranges, false⟩, tail)

/-- A number at the beginning of a text, and the text behind it. -/
def leadingNumber? (cs : List Char) : Option Nat × List Char :=
  let ds := cs.takeWhile Char.isDigit
  (if ds.isEmpty then none else some (digitsValue ds),
    cs.dropWhile Char.isDigit)

/-- The bounds of a repetition behind the opening brace, and the text behind the
closing brace. -/
def bounds (cs : List Char) : Option ((Nat × Option Nat) × List Char) :=
  match leadingNumber? cs with
  | (some low, '}' :: rest) => some ((low, some low), rest)
  | (some low, ',' :: rest) =>
      match leadingNumber? rest with
      | (high, '}' :: rest) => some ((low, high), rest)
      | _ => none
  | _ => none

/-- A text without the mark of a reluctant repetition. -/
def dropReluctance : List Char → List Char
  | '?' :: rest => rest
  | cs => cs

/-- The token at the beginning of a text, and the text behind it. -/
def token? : List Char → Option (Token × List Char)
  | [] => none
  | '\\' :: c :: rest =>
      (escapedRanges? c).map fun ranges =>
        (.piece (.char ⟨ranges, false⟩), rest)
  | '[' :: rest =>
      (charClass rest).map fun (set, tail) => (.piece (.char set), tail)
  | '(' :: '?' :: ':' :: rest => some (.opening, rest)
  | '(' :: '?' :: _ => none
  | '(' :: rest => some (.opening, rest)
  | ')' :: rest => some (.closing, rest)
  | '|' :: rest => some (.bar, rest)
  | '*' :: rest => some (.repetition 0 none, dropReluctance rest)
  | '+' :: rest => some (.repetition 1 none, dropReluctance rest)
  | '?' :: rest => some (.repetition 0 (some 1), dropReluctance rest)
  | '{' :: rest =>
      (bounds rest).map fun ((low, high), tail) =>
        (.repetition low high, dropReluctance tail)
  | '.' :: rest => some (.piece (.char .anyInLine), rest)
  | c :: rest =>
      if c = '^' || c = '$' || c = '\\' then none
      else some (.piece (.char (.single c)), rest)

/-- The tokens of a text. Every token takes a character, so a text has at most
as many tokens as characters. -/
def tokens? : Nat → List Char → Option (List Token)
  | _, [] => some []
  | 0, _ :: _ => none
  | n + 1, c :: cs => do
      let (t, rest) ← token? (c :: cs)
      let ts ← tokens? n rest
      some (t :: ts)

/-! ## Assembly -/

/-- A group under assembly: the alternatives before the last bar and the pieces
behind it, each with the last one first. -/
structure Group where
  branches : List Pattern
  pieces : List Pattern

namespace Group

def empty : Group := ⟨[], []⟩

def push (g : Group) (p : Pattern) : Group := { g with pieces := p :: g.pieces }

/-- Begins the next alternative. -/
def split (g : Group) : Group := ⟨sequence g.pieces.reverse :: g.branches, []⟩

/-- The pattern of the whole group. -/
def toPattern (g : Group) : Pattern := choice (g.split.branches.reverse)

end Group

/-- Assembles tokens, given the innermost open group and those around it. -/
def assemble? : List Token → Group → List Group → Option Pattern
  | [], g, [] => some g.toPattern
  | [], _, _ :: _ => none
  | .piece p :: ts, g, outer => assemble? ts (g.push p) outer
  | .opening :: ts, g, outer => assemble? ts .empty (g :: outer)
  | .closing :: ts, g, around :: outer =>
      assemble? ts (around.push g.toPattern) outer
  | .closing :: _, _, [] => none
  | .bar :: ts, g, outer => assemble? ts g.split outer
  | .repetition low high :: ts, g, outer =>
      match g.pieces with
      | [] => none
      | p :: before =>
          if high.all (low ≤ ·) then
            assemble? ts { g with pieces := repeated p low high :: before }
              outer
          else none

/-- The pattern that a text writes, if it writes one. -/
def ofText? (text : String) : Option Pattern := do
  let cs := text.toList
  let ts ← tokens? cs.length cs
  assemble? ts .empty []

end ValueMix.Pattern
