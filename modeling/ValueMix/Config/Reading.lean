import ValueMix.Config.Basic
import ValueMix.Toml.Document

/-!
# Configuration files

A configuration file is a TOML document with a table `sampling` (`seed`,
`count`) and a table of tables `distributions` (`parser`, `spec`), all of which
may be left out but the `spec` of a distribution. Anything else in it is an
error.

The two kinds of record can also be written as arrays. The values then stand in
the order of the fields, only trailing fields with a standard value may be left
out, and values behind those of the fields are ignored.
-/

namespace ValueMix

open ValueMix.Toml

/-- The values of a record. -/
structure Record where
  /-- Whether the values stand in the order of the fields instead of being
  named. -/
  positional : Bool
  values : List (String × Toml.Value)

namespace Record

/-- The record with given fields that a value states. -/
def ofValue? (fields : List String) : Toml.Value → Option Record
  | .table entries =>
      if entries.all fun e => fields.contains e.1 then some ⟨false, entries⟩
      else none
  | .array items => some ⟨true, fields.zip items⟩
  | _ => none

def field? (r : Record) (name : String) : Option Toml.Value :=
  r.values.lookup name

end Record

/-- The word that an integer states; words stop at the largest TOML integer
here. -/
def wordOfValue? : Toml.Value → Option UInt64
  | .integer n => if 0 ≤ n then some (UInt64.ofNat n.toNat) else none
  | _ => none

/-- Whether a value has parts but lacks any. -/
def isEmptyValue : Toml.Value → Bool
  | .array [] => true
  | .table [] => true
  | _ => false

/-- The kind of values that a value names, as a text or as the key of an empty
value. -/
def Kind.ofValue? : Toml.Value → Option Kind
  | .text name => ofName? name
  | .table [(name, v)] => if isEmptyValue v then ofName? name else none
  | _ => none

/-- The settings that a value states. -/
def SamplingSettings.ofValue? (v : Toml.Value) : Option SamplingSettings := do
  let r ← Record.ofValue? ["seed", "count"] v
  let seed ← match r.field? "seed" with
    | some v => (wordOfValue? v).map some
    | none => if r.positional then none else some none
  let count ← match r.field? "count" with
    | some v => wordOfValue? v
    | none => some standard.count
  some ⟨seed, count⟩

/-- The definition that a value states. -/
def Definition.ofValue? (v : Toml.Value) : Option Definition := do
  let r ← Record.ofValue? ["parser", "spec"] v
  let kind ← match r.field? "parser" with
    | some v => Kind.ofValue? v
    | none => some .integer
  let spec ← (← r.field? "spec").text?
  some ⟨kind, spec⟩

/-- The catalog that a value states. -/
def Catalog.ofValue? (v : Toml.Value) : Option Catalog := do
  let entries ← v.table?
  let definitions ← entries.mapM fun (name, v) => do
    let d ← Definition.ofValue? v
    some (name, d)
  some (ofList definitions)

namespace Config

/-- The configuration that the entries of a document state. -/
def ofEntries? (entries : List (String × Toml.Value)) : Option Config := do
  let r ← Record.ofValue? ["sampling", "distributions"] (.table entries)
  let sampling ← match r.field? "sampling" with
    | some v => SamplingSettings.ofValue? v
    | none => some .standard
  let distributions ← match r.field? "distributions" with
    | some v => Catalog.ofValue? v
    | none => some .empty
  some ⟨sampling, distributions⟩

/-- The configuration that a file states. -/
def read? (text : String) : Option Config := do
  let entries ← Toml.read? text
  ofEntries? entries

end Config

end ValueMix
