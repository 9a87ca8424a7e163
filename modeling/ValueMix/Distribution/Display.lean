import ValueMix.Distribution.Basic
import ValueMix.Number.Percent

/-!
# Distributions as text

A distribution is shown as `[p%: v, p%: v]` with its marginal percentages. They
have one decimal and add up to 100 exactly, so the text can be read back. The
table lists marginal and cumulative percentages, each rounded on its own.
-/

namespace ValueMix.Distribution

open ValueMix.Number

variable {α : Type} [ToString α]

/-- The text of an entry, from its percentage and its value. -/
def entryText (percent : String) (value : α) : String :=
  percent ++ "%: " ++ toString value

/-- The text of a distribution. -/
def text (d : Distribution α) : String :=
  "[" ++ ", ".intercalate
    (List.zipWith entryText (apportionedTexts d.marginals) d.values) ++ "]"

instance : ToString (Distribution α) := ⟨text⟩

/-- A line of the table of a distribution. -/
structure TableRow where
  value : String
  marginal : String
  cumulative : String
  deriving DecidableEq

/-- The value, the marginal and the cumulative percentage of every entry. -/
def table (d : Distribution α) : List TableRow :=
  (d.entries.zip d.cumulatives).map fun ((v, p), c) =>
    ⟨toString v, percentText p, percentText c⟩

end ValueMix.Distribution
