import ValueMix.Spec.Codec
import ValueMix.Sampling.Report

/-!
# Kinds of values

A configuration or a command line names the kind of values of a distribution. A
`Mixture` is a distribution of any of these kinds.
-/

namespace ValueMix

/-- The kinds of values. -/
inductive Kind where
  | integer
  | size
  | word
  deriving DecidableEq

namespace Kind

def name : Kind → String
  | integer => "integer"
  | size => "size"
  | word => "word"

/-- The kind of a given name. -/
def ofName? (s : String) : Option Kind :=
  [integer, size, word].find? fun k => k.name = s

end Kind

/-- A distribution over values of some kind. -/
inductive Mixture where
  | integer (d : Distribution UInt64)
  | size (d : Distribution UInt64)
  | word (d : Distribution String)

namespace Mixture

def kind : Mixture → Kind
  | integer _ => .integer
  | size _ => .size
  | word _ => .word

/-- The number of entries. -/
def entryCount : Mixture → Nat
  | integer d => d.size
  | size d => d.size
  | word d => d.size

/-- The text of the distribution. -/
def text : Mixture → String
  | integer d => d.text
  | size d => d.text
  | word d => d.text

/-- The value, the marginal and the cumulative percentage of every entry. -/
def table : Mixture → List Distribution.TableRow
  | integer d => d.table
  | size d => d.table
  | word d => d.table

/-- Draws `samples` values and reports on them. -/
@[specialize] def report {σ : Type} [WordSource σ] (m : Mixture)
    (samples : Nat) (source : σ) : Report × σ :=
  match m with
  | integer d => Report.collect d samples source
  | size d => Report.collect d samples source
  | word d => Report.collect d samples source

end Mixture

namespace Kind

/-- The distribution that a text states for a kind of values. -/
def read (k : Kind) (text : String) : Except Error Mixture :=
  match k with
  | integer => do
      let c ← Codec.ofReader .integer
      let d ← c.read text
      return .integer d
  | size => do
      let c ← Codec.ofReader .size
      let d ← c.read text
      return .size d
  | word => do
      let c ← Codec.ofReader .word
      let d ← c.read text
      return .word d

/-- The regular expression of whole distributions of a kind. -/
def allowedPattern (k : Kind) : Except Error String :=
  match k with
  | integer => (Codec.ofReader .integer).map (·.allowedPattern)
  | size => (Codec.ofReader .size).map (·.allowedPattern)
  | word => (Codec.ofReader .word).map (·.allowedPattern)

end Kind

end ValueMix
