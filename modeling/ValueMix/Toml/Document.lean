import ValueMix.Toml.Quoted
import ValueMix.Toml.Scalar
import ValueMix.Toml.Tree

/-!
# Reading TOML

`Toml.read?` reads a whole document. The text is read line by line into
statements, and the statements are assembled into a table. Arrays and inline
tables may be nested, and keys may have parts, up to a common limit.
-/

namespace ValueMix.Toml

/-- How deep values may be nested, and how many parts a key may have. -/
def nestingLimit : Nat := 79

/-! ## Keys -/

/-- The characters of keys without quotation marks. -/
def isBareKeyChar (c : Char) : Bool := c.isAlphanum || c = '_' || c = '-'

/-- A key without dots at the beginning of a text, and the text behind it. -/
def simpleKey? (cs : List Char) : Option (String × List Char) :=
  let bare := cs.takeWhile isBareKeyChar
  if bare.isEmpty then
    (quotedLine cs).map fun (content, rest) => (String.ofList content, rest)
  else some (String.ofList bare, cs.dropWhile isBareKeyChar)

/-- A key of at most `parts` parts at the beginning of a text, and the text
behind it. -/
def key? : (parts : Nat) → List Char → Option (List String × List Char)
  | 0, _ => none
  | parts + 1, cs => do
      let (first, rest) ← simpleKey? (skipGap cs)
      match skipGap rest with
      | '.' :: rest =>
          let (more, rest) ← key? parts rest
          some (first :: more, rest)
      | rest => some ([first], rest)

/-! ## Values -/

/-- A text without the comment that it starts with. -/
def skipComment : List Char → List Char
  | '#' :: rest => rest.dropWhile isLineChar
  | cs => cs

/-- A text without the blanks, comments and line ends that it starts with. -/
def skipLines : (limit : Nat) → List Char → List Char
  | 0, cs => cs
  | limit + 1, cs =>
      let rest := skipComment (skipGap cs)
      match lineEnd? rest with
      | some rest => skipLines limit rest
      | none => rest

/-- The items of an array with at most `limit` items, behind its opening
bracket. -/
def arrayItems {α : Type} (item : List Char → Option (α × List Char)) :
    (limit : Nat) → List Char → Option (List α × List Char)
  | 0, _ => none
  | limit + 1, cs =>
      match skipLines cs.length cs with
      | ']' :: rest => some ([], rest)
      | body => do
          let (v, rest) ← item body
          match skipLines rest.length rest with
          | ',' :: rest =>
              let (vs, rest) ← arrayItems item limit rest
              some (v :: vs, rest)
          | ']' :: rest => some ([v], rest)
          | _ => none

/-- A key with its value, and the text behind them. -/
def pair? {α : Type} (item : List Char → Option (α × List Char))
    (cs : List Char) : Option ((List String × α) × List Char) := do
  let (path, rest) ← key? nestingLimit cs
  let rest ← behind? '=' rest
  let (v, rest) ← item (skipGap rest)
  some ((path, v), rest)

/-- The entries of an inline table with at most `limit` entries; there is at
least one. -/
def inlinePairs {α : Type} (item : List Char → Option (α × List Char)) :
    (limit : Nat) → List Char → Option (List (List String × α) × List Char)
  | 0, _ => none
  | limit + 1, cs => do
      let (pair, rest) ← pair? item cs
      match skipGap rest with
      | ',' :: rest =>
          let (pairs, rest) ← inlinePairs item limit rest
          some (pair :: pairs, rest)
      | '\x7d' :: rest => some ([pair], rest)
      | _ => none

/-- An inline table behind its opening brace. -/
def inlineTable? (item : List Char → Option (Value × List Char))
    (cs : List Char) : Option (Value × List Char) :=
  match skipGap cs with
  | '\x7d' :: rest => some (.table [], rest)
  | body => do
      let (pairs, rest) ← inlinePairs item body.length body
      let tree ← Tree.ofPairs? pairs
      some (.table tree.toEntries, rest)

/-- A value without parts at the beginning of a text, and the text behind it. -/
def simpleValue? (cs : List Char) : Option (Value × List Char) :=
  match cs with
  | '"' :: _ =>
      (quoted cs).map fun (content, rest) =>
        (.text (String.ofList content), rest)
  | '\'' :: _ =>
      (quoted cs).map fun (content, rest) =>
        (.text (String.ofList content), rest)
  | _ => scalar? cs

/-- A value at the beginning of a text, and the text behind it. Arrays and
inline tables are nested at most `depth` times. -/
def value? : (depth : Nat) → List Char → Option (Value × List Char)
  | 0, cs => simpleValue? cs
  | depth + 1, cs =>
      match cs with
      | '[' :: rest =>
          (arrayItems (value? depth) cs.length rest).map fun (vs, rest) =>
            (.array vs, rest)
      | '\x7b' :: rest => inlineTable? (value? depth) rest
      | _ => simpleValue? cs

/-! ## Lines -/

/-- The statement at the beginning of a line, and the text behind it. -/
def statement? : List Char → Option (Statement × List Char)
  | '[' :: '[' :: rest => do
      let (path, rest) ← key? nestingLimit rest
      let rest ← behind? ']' rest
      let rest ← behind? ']' rest
      some (.element path, rest)
  | '[' :: rest => do
      let (path, rest) ← key? nestingLimit rest
      let rest ← behind? ']' rest
      some (.table path, rest)
  | cs => do
      let ((path, v), rest) ← pair? (value? nestingLimit) cs
      some (.entry path v, rest)

/-- The text behind the rest of a line, which may hold a comment only. -/
def finishLine? (cs : List Char) : Option (List Char) :=
  match skipComment (skipGap cs) with
  | [] => some []
  | rest => lineEnd? rest

/-- The statements of a text with at most `limit` of them. -/
def statements? : (limit : Nat) → List Char → Option (List Statement)
  | 0, cs => if (skipLines cs.length cs).isEmpty then some [] else none
  | limit + 1, cs =>
      match skipLines cs.length cs with
      | [] => some []
      | body => do
          let (s, rest) ← statement? body
          let rest ← finishLine? rest
          let more ← statements? limit rest
          some (s :: more)

/-- A text without the mark of its encoding. -/
def skipEncodingMark : List Char → List Char
  | '\ufeff' :: rest => rest
  | cs => cs

/-- The entries of the document that a text writes. -/
def read? (text : String) : Option (List (String × Value)) := do
  let cs := skipEncodingMark text.toList
  let statements ← statements? cs.length cs
  let tree ← Tree.ofStatements? statements
  some tree.toEntries

end ValueMix.Toml
