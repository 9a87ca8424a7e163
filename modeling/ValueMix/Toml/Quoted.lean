import ValueMix.Text.Digits

/-!
# Quoted texts

TOML has four kinds of quoted texts. Basic ones stand between quotation marks
and know escapes, literal ones stand between apostrophes and mean what they
show. Either kind stands in one line, or between triple marks in several lines;
then a line end right behind the opening marks is left out, and line ends count
as line feeds.

A reader takes the text behind the opening marks and returns the content with
the text behind the closing marks.
-/

namespace ValueMix.Toml

open ValueMix.Text

/-- A content and the text behind it. -/
abbrev Quoted := Option (List Char × List Char)

/-- Puts a character in front of the content. -/
def Quoted.push (c : Char) (q : Quoted) : Quoted :=
  q.map fun (content, rest) => (c :: content, rest)

/-- The characters that may stand in a line: all but control characters of
ASCII. -/
def isLineChar (c : Char) : Bool :=
  c = '\t' || (0x20 ≤ c.toNat && c.toNat ≠ 0x7f)

/-- Blanks within a line. -/
def isGap (c : Char) : Bool := c = ' ' || c = '\t'

/-- A text without the blanks it starts with. -/
def skipGap (cs : List Char) : List Char := cs.dropWhile isGap

/-- The text behind the line end at the beginning of a text. -/
def lineEnd? : List Char → Option (List Char)
  | '\n' :: rest => some rest
  | '\r' :: '\n' :: rest => some rest
  | _ => none

/-! ## Escapes -/

/-- The character that a letter behind a backslash stands for. -/
def escapedChar? (c : Char) : Option Char :=
  [('b', '\x08'), ('t', '\t'), ('n', '\n'), ('f', '\x0c'), ('r', '\r'),
    ('"', '"'), ('\\', '\\')].lookup c

/-- The character with a code point given by hexadecimal digits. -/
def charOfHex? (ds : List Char) : Option Char := do
  let n ← readRadix 16 ds
  if n.isValidChar then some (Char.ofNat n) else none

/-! ## Texts in one line -/

/-- The content of a literal text in one line. -/
def literalLine : List Char → Quoted
  | [] => none
  | c :: rest =>
      if c = '\'' then some ([], rest)
      else if isLineChar c then (literalLine rest).push c
      else none

/-- The content of a basic text in one line. -/
def basicLine : List Char → Quoted
  | [] => none
  | '\\' :: 'u' :: a :: b :: c :: d :: rest => do
      let ch ← charOfHex? [a, b, c, d]
      (basicLine rest).push ch
  | '\\' :: 'U' :: a :: b :: c :: d :: e :: f :: g :: h :: rest => do
      let ch ← charOfHex? [a, b, c, d, e, f, g, h]
      (basicLine rest).push ch
  | '\\' :: c :: rest => do
      let ch ← escapedChar? c
      (basicLine rest).push ch
  | c :: rest =>
      if c = '"' then some ([], rest)
      else if c ≠ '\\' && isLineChar c then (basicLine rest).push c
      else none

/-! ## Texts in several lines -/

/-- The text without a line end at its beginning. -/
def dropLineEnd (cs : List Char) : List Char := (lineEnd? cs).getD cs

/-- What three or more marks in a row mean at the beginning of a text: the last
three close it, and at most two before them belong to the content. -/
def closing (mark : Char) (cs : List Char) : Quoted :=
  let run := cs.takeWhile (· = mark)
  if run.length ≤ 5 then some (run.drop 3, cs.dropWhile (· = mark)) else none

/-- Whether three marks stand at the beginning of a text. -/
def closes (mark : Char) (cs : List Char) : Bool :=
  cs.take 3 = [mark, mark, mark]

/-- Whether a character can stand as itself in a text of several lines, in front
of a given text. A carriage return needs a line feed behind it. -/
def isPlain (c : Char) (rest : List Char) : Bool :=
  isLineChar c || c = '\n' || (c = '\r' && rest.head? = some '\n')

/-- Puts a character in front of the content, unless it is the carriage return
of a line end. -/
def Quoted.pushPlain (c : Char) (q : Quoted) : Quoted :=
  if c = '\r' then q else q.push c

/-- The content of a literal text in several lines. -/
def literalLines : List Char → Quoted
  | [] => none
  | c :: rest =>
      if closes '\'' (c :: rest) then closing '\'' (c :: rest)
      else if isPlain c rest then (literalLines rest).pushPlain c
      else none

/-- Whether a text starts with a line end, apart from blanks. -/
def endsLine (cs : List Char) : Bool := (lineEnd? (skipGap cs)).isSome

/-- The content of a basic text in several lines. While `skipping`, blanks and
line ends are left out; a backslash in front of a line end starts that. -/
def basicLines : (skipping : Bool) → List Char → Quoted
  | _, [] => none
  | _, '\\' :: 'u' :: a :: b :: c :: d :: rest => do
      let ch ← charOfHex? [a, b, c, d]
      (basicLines false rest).push ch
  | _, '\\' :: 'U' :: a :: b :: c :: d :: e :: f :: g :: h :: rest => do
      let ch ← charOfHex? [a, b, c, d, e, f, g, h]
      (basicLines false rest).push ch
  | _, '\\' :: c :: rest =>
      if endsLine (c :: rest) then basicLines true rest
      else do
        let ch ← escapedChar? c
        (basicLines false rest).push ch
  | skipping, c :: rest =>
      if closes '"' (c :: rest) then closing '"' (c :: rest)
      else if skipping && (isGap c || c = '\n' || c = '\r') then
        if isPlain c rest then basicLines true rest else none
      else if c ≠ '\\' && isPlain c rest then
        (basicLines false rest).pushPlain c
      else none

/-! ## Any kind -/

/-- The content of a quoted text in one line, from its opening mark on. -/
def quotedLine : List Char → Quoted
  | '"' :: rest => basicLine rest
  | '\'' :: rest => literalLine rest
  | _ => none

/-- The content of a quoted text of any kind, from its opening marks on. -/
def quoted : List Char → Quoted
  | '"' :: '"' :: '"' :: rest => basicLines false (dropLineEnd rest)
  | '\'' :: '\'' :: '\'' :: rest => literalLines (dropLineEnd rest)
  | cs => quotedLine cs

end ValueMix.Toml
