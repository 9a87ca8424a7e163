import ValueMix.Binary64.Shortest
import ValueMix.Json.Basic
import ValueMix.Sampling.Report

/-!
# Reports as JSON

A report is an object with the number of samples and the list of its rows.
Percentages are written with the fewest digits that read back; infinities and
`NaN` have no JSON literal and become null.
-/

namespace ValueMix.Report

open ValueMix.Text

/-- A natural number as JSON. -/
def jsonOfNat (n : Nat) : Json := .number (digits n)

/-- A percentage as JSON. -/
def jsonOfPercent (x : Binary64) : Json :=
  if x.isFinite then .number x.shortestText.toList else .null

/-- A row as JSON. -/
def jsonOfRow (row : ReportRow) : Json :=
  .object [("value".toList, .text row.value.toList),
    ("expected_percent".toList, jsonOfPercent row.expected),
    ("observed_percent".toList, jsonOfPercent row.observed),
    ("count".toList, jsonOfNat row.count)]

/-- A report as JSON. -/
def toJson (r : Report) : Json :=
  .object
    [("samples".toList, jsonOfNat r.samples),
      ("rows".toList, .array (r.rows.map jsonOfRow))]

/-- The JSON text of a report, laid out over several lines or compact. -/
def jsonText (r : Report) (pretty : Bool) : String := r.toJson.render pretty

/-- The JSON text of a report as a line of its own. -/
def jsonLine (r : Report) (pretty : Bool) : String := r.jsonText pretty ++ "\n"

end ValueMix.Report
