import ValueMix.Text.Digits

/-!
# JSON values and how they are written

A JSON value can be written compactly, without any blanks, or laid out, with two
blanks of indentation per level and every member on a line of its own. Both
forms write the same tokens. Numbers are kept as their literals, and objects as
lists of members, whose order is kept.
-/

namespace ValueMix

inductive Json where
  | null
  | number (literal : List Char)
  | text (characters : List Char)
  | array (items : List Json)
  | object (members : List (List Char × Json))

namespace Json

open ValueMix.Text

/-! ## Strings -/

/-- The digits of the hexadecimal system. -/
def hexDigit (n : Nat) : Char := Nat.digitChar n

/-- A character as it stands inside quotation marks. Only quotation marks,
backslashes and control characters below the blank are escaped. -/
def escaped (c : Char) : List Char :=
  if c = '"' then ['\\', '"']
  else if c = '\\' then ['\\', '\\']
  else if c = '\n' then ['\\', 'n']
  else if c = '\r' then ['\\', 'r']
  else if c = '\t' then ['\\', 't']
  else if c = '\x08' then ['\\', 'b']
  else if c = '\x0c' then ['\\', 'f']
  else if c.toNat < 32 then
    ['\\', 'u', '0', '0', hexDigit (c.toNat / 16), hexDigit (c.toNat % 16)]
  else [c]

/-- A text in quotation marks. -/
def quoted (cs : List Char) : List Char := '"' :: (cs.flatMap escaped ++ ['"'])

/-! ## Compact form -/

mutual

/-- The compact form of a value. -/
def compact : Json → List Char
  | .null => ['n', 'u', 'l', 'l']
  | .number literal => literal
  | .text cs => quoted cs
  | .array items => '[' :: (compactItems items ++ [']'])
  | .object members => '\x7b' :: (compactMembers members ++ ['\x7d'])

/-- Items in compact form, with commas between them. -/
def compactItems : List Json → List Char
  | [] => []
  | [v] => compact v
  | v :: rest => compact v ++ ',' :: compactItems rest

/-- Members in compact form, with commas between them. -/
def compactMembers : List (List Char × Json) → List Char
  | [] => []
  | [(k, v)] => quoted k ++ ':' :: compact v
  | (k, v) :: rest =>
      quoted k ++ ':' :: (compact v ++ ',' :: compactMembers rest)

end

/-! ## Laid out form -/

/-- The beginning of a line at a given level. -/
def newLine (level : Nat) : List Char := '\n' :: List.replicate (2 * level) ' '

mutual

/-- The laid out form of a value that begins on a line of the given level. -/
def laidOut (level : Nat) : Json → List Char
  | .null => ['n', 'u', 'l', 'l']
  | .number literal => literal
  | .text cs => quoted cs
  | .array [] => ['[', ']']
  | .array (v :: rest) =>
      '[' :: (newLine (level + 1) ++ (laidOut (level + 1) v ++
        (laidOutItems (level + 1) rest ++ (newLine level ++ [']']))))
  | .object [] => ['\x7b', '\x7d']
  | .object ((k, v) :: rest) =>
      '\x7b' :: (newLine (level + 1) ++
        (quoted k ++ ':' :: ' ' :: (laidOut (level + 1) v ++
          (laidOutMembers (level + 1) rest ++ (newLine level ++ ['\x7d'])))))

/-- Items that follow another one, each on a line of its own. -/
def laidOutItems (level : Nat) : List Json → List Char
  | [] => []
  | v :: rest =>
      ',' :: (newLine level ++ (laidOut level v ++ laidOutItems level rest))

/-- Members that follow another one, each on a line of its own. -/
def laidOutMembers (level : Nat) : List (List Char × Json) → List Char
  | [] => []
  | (k, v) :: rest =>
      ',' :: (newLine level ++ (quoted k ++ ':' :: ' ' :: (laidOut level v ++
        laidOutMembers level rest)))

end

/-- The text of a value in one of the two forms. -/
def render (v : Json) (pretty : Bool) : String :=
  String.ofList (if pretty then laidOut 0 v else compact v)

end Json

end ValueMix
