import Mathlib
import ValueMix.CommandLine.Run
import ValueMix.Proofs.Console
import ValueMix.Proofs.JsonWriting
import ValueMix.Proofs.NumberLiterals

/-!
# Reports read back from JSON

Both forms of a report are JSON texts of one object. Looked up by the names of
its members, the object yields the number of samples and the rows in order,
each with its value, its count, and the literals of its percentages.

## Main results

* `wellFormed_toJson` — all numbers of a report are number literals.
* `decode?_toJson` — what the object of a report yields.
* `jsonText_exact` — reading either form, and what is written as a line.
-/

namespace ValueMix

open ValueMix.Text
open ValueMix.CommandLine.Console

/-! ## Looking up members -/

namespace JsonValue

/-- The member of an object with a given name. -/
def member? (name : String) : JsonValue → Option JsonValue
  | .object members => (members.find? fun m => m.1 = name.toList).map Prod.snd
  | _ => none

def text? : JsonValue → Option String
  | .text cs => some (String.ofList cs)
  | _ => none

/-- The value of a number literal without sign, point and exponent. -/
def natural? : JsonValue → Option ℕ
  | .number ds => if allDigits ds then some (digitsValue ds) else none
  | _ => none

/-- A number literal, or nothing for null. -/
def literal? : JsonValue → Option (Option (List Char))
  | .number literal => some (some literal)
  | .null => some none
  | _ => none

def items? : JsonValue → Option (List JsonValue)
  | .array items => some items
  | _ => none

end JsonValue

namespace Report

/-! ## Decoding -/

/-- What a JSON object tells about a row. Percentages are number literals. -/
structure DecodedRow where
  value : String
  expected : Option (List Char)
  observed : Option (List Char)
  count : ℕ

/-- What a JSON object tells about a report. -/
structure Decoded where
  samples : ℕ
  rows : List DecodedRow

/-- The row that an object states, by the names of its members. -/
def decodeRow? (v : JsonValue) : Option DecodedRow := do
  let value ← (← v.member? "value").text?
  let expected ← (← v.member? "expected_percent").literal?
  let observed ← (← v.member? "observed_percent").literal?
  let count ← (← v.member? "count").natural?
  return ⟨value, expected, observed, count⟩

/-- The report that an object states, by the names of its members. -/
def decode? (v : JsonValue) : Option Decoded := do
  let samples ← (← v.member? "samples").natural?
  let items ← (← v.member? "rows").items?
  let rows ← items.mapM decodeRow?
  return ⟨samples, rows⟩

/-- The literal of a percentage, unless it is infinite or no number. -/
def percentLiteral (x : Binary64) : Option (List Char) :=
  if x.isFinite then some x.shortestText.toList else none

theorem natural?_jsonOfNat (n : ℕ) : (jsonOfNat n).value.natural? = some n := by
  have hAll : allDigits (digits n) = true := allDigits_iff.2 (digits_digits n)
  show (if allDigits (digits n) then some (digitsValue (digits n)) else none) =
    some n
  rw [if_pos hAll, digitsValue_digits]

theorem literal?_jsonOfPercent (x : Binary64) :
    (jsonOfPercent x).value.literal? = some (percentLiteral x) := by
  unfold jsonOfPercent percentLiteral
  split_ifs <;> rfl

/-- What the object of a row yields. -/
theorem decodeRow?_jsonOfRow (row : ReportRow) :
    decodeRow? (jsonOfRow row).value =
      some ⟨row.value, percentLiteral row.expected, percentLiteral row.observed,
        row.count⟩ := by
  have hValue : (jsonOfRow row).value.member? "value" =
      some (.text row.value.toList) := rfl
  have hExpected : (jsonOfRow row).value.member? "expected_percent" =
      some (jsonOfPercent row.expected).value := rfl
  have hObserved : (jsonOfRow row).value.member? "observed_percent" =
      some (jsonOfPercent row.observed).value := rfl
  have hCount : (jsonOfRow row).value.member? "count" =
      some (jsonOfNat row.count).value := rfl
  have hText : (JsonValue.text row.value.toList).text? = some row.value := by
    rw [JsonValue.text?, String.ofList_toList]
  simp only [decodeRow?, hValue, hExpected, hObserved, hCount, hText,
    literal?_jsonOfPercent, natural?_jsonOfNat, Option.bind_eq_bind,
    Option.bind_some, Option.pure_def]

theorem mapM_decodeRow? (rows : List ReportRow) :
    (rows.map fun row => (jsonOfRow row).value).mapM decodeRow? =
      some (rows.map fun row => ⟨row.value, percentLiteral row.expected,
        percentLiteral row.observed, row.count⟩) := by
  induction rows with
  | nil => rfl
  | cons row rows ih =>
      rw [List.map_cons, List.mapM_cons, decodeRow?_jsonOfRow, ih]
      rfl

/-- What the object of a report yields. -/
theorem decode?_toJson (r : Report) :
    decode? r.toJson.value =
      some ⟨r.samples,
        r.rows.map fun row => ⟨row.value, percentLiteral row.expected,
          percentLiteral row.observed, row.count⟩⟩ := by
  have hSamples : r.toJson.value.member? "samples" =
      some (jsonOfNat r.samples).value := rfl
  have hRows : r.toJson.value.member? "rows" =
      some (.array (Json.itemValues (r.rows.map jsonOfRow))) := rfl
  have hItems : Json.itemValues (r.rows.map jsonOfRow) =
      r.rows.map fun row => (jsonOfRow row).value := by
    rw [Json.itemValues_eq_map, List.map_map]
    rfl
  simp only [decode?, hSamples, hRows, natural?_jsonOfNat, JsonValue.items?,
    hItems,
    mapM_decodeRow?, Option.bind_eq_bind, Option.bind_some, Option.pure_def]

/-! ## Literals -/

theorem wellFormed_jsonOfPercent (x : Binary64) :
    (jsonOfPercent x).WellFormed := by
  unfold jsonOfPercent
  split_ifs
  · exact Binary64.matches_shortestText x
  · trivial

theorem wellFormed_jsonOfRow (row : ReportRow) : (jsonOfRow row).WellFormed :=
  ⟨trivial, wellFormed_jsonOfPercent row.expected,
    wellFormed_jsonOfPercent row.observed,
    JsonValue.matches_digits row.count, trivial⟩

/-- All numbers of a report are number literals. -/
theorem wellFormed_toJson (r : Report) : r.toJson.WellFormed := by
  refine ⟨JsonValue.matches_digits r.samples, ?_, trivial⟩
  refine Json.wellFormedItems_of_forall fun v hv => ?_
  obtain ⟨row, -, rfl⟩ := List.mem_map.1 hv
  exact wellFormed_jsonOfRow row

/-! ## Texts and lines -/

/-- **The JSON of reports.** Either form of a report is a JSON text, and it is
read as one object. Looked up by their names, its members are the number of
samples and the rows in their order, each with its value, its count and the
literals of its percentages, which are null where they are not finite. The
compact form is a single line. A report is written as its text and a newline,
whatever was written before. -/
theorem jsonText_exact (r : Report) :
    (∀ pretty,
      JsonValue.Spelled r.toJson.value.tokens (r.jsonText pretty).toList) ∧
    (∀ pretty,
      JsonValue.read? (r.jsonText pretty).toList = some r.toJson.value) ∧
    decode? r.toJson.value =
      some ⟨r.samples,
        r.rows.map fun row => ⟨row.value, percentLiteral row.expected,
          percentLiteral row.observed, row.count⟩⟩ ∧
    '\n' ∉ (r.jsonText false).toList ∧
    (∀ pretty, r.jsonLine pretty = r.jsonText pretty ++ "\n") ∧
    ∀ m,
      Prints (CommandLine.writeReport m r true) (r.jsonText true ++ "\n") := by
  have hNumbers := wellFormed_toJson r
  refine ⟨?_, ?_, decode?_toJson r, ?_, fun _ => rfl, ?_⟩
  · exact fun pretty => Json.spelled_render hNumbers pretty
  · exact fun pretty => Json.read?_render hNumbers pretty
  · exact Json.newline_not_mem_compact hNumbers
  · exact fun m => prints_write (r.jsonLine true)

end Report

end ValueMix
