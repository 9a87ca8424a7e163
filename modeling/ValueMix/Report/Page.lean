import ValueMix.Binary64.Shortest
import ValueMix.Sampling.Report
import ValueMix.Spec.Kind
import ValueMix.Text.Columns

/-!
# Pages of text

Distributions and reports as tables for people. Every line ends with a line
feed. Columns are padded by characters; numbers stand at the right, values at
the left.
-/

namespace ValueMix

open ValueMix.Text

/-- The lines of a page, each ended by a line feed. -/
def page (lines : List String) : String := String.join (lines.map (· ++ "\n"))

namespace Mixture

/-- A line of the table of a distribution. -/
def tableLine (value marginal cumulative : String) : String :=
  "  " ++ flushLeft 24 value ++ " " ++ flushRight 10 marginal ++ " " ++
    flushRight 12 cumulative

/-- The lines that show a distribution under a title. -/
def pageLines (title : String) (m : Mixture) : List String :=
  [title ++ " (" ++ m.kind.name ++ ", " ++ toString m.entryCount ++ " entries)",
    "  " ++ m.text,
    "",
    tableLine "Value" "Marginal" "Cumulative"] ++
  m.table.map fun row =>
    tableLine row.value (row.marginal ++ "%") (row.cumulative ++ "%")

/-- The page that shows a distribution under a title. -/
def pageText (title : String) (m : Mixture) : String := page (m.pageLines title)

end Mixture

namespace Report

/-- A line of the table of a report. -/
def tableLine (value expected observed count : String) : String :=
  "  " ++ flushLeft 24 value ++ " " ++ flushRight 10 expected ++ " " ++
    flushRight 10 observed ++ " " ++ flushRight 12 count

/-- A percentage with two decimals. -/
def percentText (x : Binary64) : String := x.fixedText 2 ++ "%"

/-- The lines that show a report. -/
def pageLines (r : Report) : List String :=
  ["Samples: " ++ grouped r.samples,
    "",
    tableLine "Value" "Expected" "Observed" "Count"] ++
  (r.rows.map fun row =>
    tableLine row.value (percentText row.expected) (percentText row.observed)
      (grouped row.count)) ++
  ["",
    "Max deviation: " ++ r.maxDeviation.fixedText 3 ++ " percentage points"]

/-- The page that shows a report. -/
def pageText (r : Report) : String := page r.pageLines

end Report

end ValueMix
