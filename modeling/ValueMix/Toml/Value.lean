import ValueMix.Binary64.Basic

/-!
# TOML values

The values that a TOML document can hold. A whole document is a table. The
entries of a table have different keys; their order means nothing.
-/

namespace ValueMix.Toml

inductive Value where
  | text (s : String)
  | integer (n : Int)
  | float (x : Binary64)
  | boolean (b : Bool)
  /-- A date, a time or both, as it is written. -/
  | dateTime (literal : String)
  | array (items : List Value)
  | table (entries : List (String × Value))

namespace Value

/-- The entries of a table. -/
def table? : Value → Option (List (String × Value))
  | table entries => some entries
  | _ => none

def text? : Value → Option String
  | text s => some s
  | _ => none

end Value

end ValueMix.Toml
