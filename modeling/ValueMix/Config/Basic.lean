import ValueMix.Config.Catalog

/-!
# Configurations

A configuration holds settings for sampling and a catalog of distributions. The
distributions stay unbuilt until they are needed: `buildAll` builds all of them
in the order of their names, `resolve` the one that a name or a text stands for.
Both say which text was at fault.
-/

namespace ValueMix

/-- How to sample. -/
structure SamplingSettings where
  /-- The seed of the random words, if they are to be the same every time. -/
  seed : Option UInt64
  /-- The number of draws. -/
  count : UInt64
  deriving DecidableEq

/-- A hundred thousand draws with another seed every time. -/
def SamplingSettings.standard : SamplingSettings := ⟨none, 100000⟩

/-- Settings and named distributions. -/
structure Config where
  sampling : SamplingSettings
  distributions : Catalog

/-- The configuration that names nothing. -/
def Config.standard : Config := ⟨.standard, .empty⟩

/-- A distribution that could not be built. -/
structure Rejection where
  /-- Its name, if it was configured. -/
  name : Option String
  spec : String
  cause : Error
  deriving DecidableEq

/-- What could not be built. -/
def Rejection.context (r : Rejection) : String :=
  match r.name with
  | some name => "Invalid distribution '" ++ name ++ "': " ++ r.spec
  | none => "Invalid distribution: " ++ r.spec

/-- What could not be built, and why. -/
def Rejection.messages (r : Rejection) : List String :=
  [r.context, r.cause.message]

/-- The distribution of a definition. -/
def Definition.build (d : Definition) : Except Error Mixture :=
  d.kind.read d.spec

/-- The distribution of a definition, under its name if it has one. -/
def Definition.buildAs (d : Definition) (name : Option String) :
    Except Rejection Mixture :=
  d.build.mapError fun cause => ⟨name, d.spec, cause⟩

namespace Config

/-- All configured distributions with their names, in the order of the names.
The first name whose definition cannot be built decides the rejection. -/
def buildAll (c : Config) : Except Rejection (List (String × Mixture)) :=
  c.distributions.entries.mapM fun (name, d) => do
    let m ← d.buildAs (some name)
    return (name, m)

/-- The distribution that a text stands for: the configured one of that name, or
else the one that the text itself states for a kind of values. -/
def resolve (c : Config) (text : String) (kind : Kind) :
    Except Rejection Mixture :=
  match c.distributions.find? text with
  | some d => d.buildAs (some text)
  | none => Definition.buildAs ⟨kind, text⟩ none

end Config

end ValueMix
