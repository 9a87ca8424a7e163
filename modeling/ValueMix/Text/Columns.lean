/-!
# Columns of text

A cell of a table is filled up with spaces to the width of its column. The width
counts characters; a text that is too long is left as it is.
-/

namespace ValueMix.Text

/-- The spaces that are missing to `width`. -/
def filling (width : Nat) (s : String) : String :=
  String.ofList (List.replicate (width - s.length) ' ')

/-- A cell whose text stands at the left. -/
def flushLeft (width : Nat) (s : String) : String := s ++ filling width s

/-- A cell whose text stands at the right. -/
def flushRight (width : Nat) (s : String) : String := filling width s ++ s

end ValueMix.Text
