import ValueMix.CommandLine.Arguments
import ValueMix.CommandLine.Console
import ValueMix.Config.Reading
import ValueMix.Report.Json
import ValueMix.Report.Page
import ValueMix.Sampling.Xoshiro

/-!
# Carrying out a command line

A command line is checked first, then the configuration is loaded, then the
command runs: it builds the distributions it is about and writes about them. The
content of the configuration file and a source of random words are given; the
source is used only where no seed is set.
-/

namespace ValueMix.CommandLine

open Console

/-! ## Settings -/

/-- Whether the arguments make sense together. -/
def Arguments.check (a : Arguments) : Except Failure Unit :=
  if a.options.count = some 0 then .error .zeroCount
  else if a.command = .showAll ∧ a.options.config = none then
    .error .nothingToShow
  else .ok ()

namespace Options

/-- The settings of a configuration, but for those that options set. -/
def override (o : Options) (s : SamplingSettings) : SamplingSettings :=
  ⟨o.seed.or s.seed, o.count.getD s.count⟩

/-- The configuration as the file states it that the options name. `content` is
the content of the file, if it can be read. -/
def fileConfig (o : Options) (content : Option String) :
    Except Failure Config :=
  match o.config, content with
  | none, _ => .ok .standard
  | some path, none => .error (.unreadableFile path)
  | some path, some text =>
      match Config.read? text with
      | some config => .ok config
      | none => .error (.malformedFile path)

/-- The configuration of the file with the settings that the options set. -/
def loadConfig (o : Options) (content : Option String) :
    Except Failure Config := do
  let config ← o.fileConfig content
  return { config with sampling := o.override config.sampling }

end Options

/-! ## Commands -/

/-- Writes the pattern of a kind of values. -/
def performPattern (kind : Kind) : Console Unit := do
  let pattern ← attempt (kind.allowedPattern.mapError .unusablePattern)
  writeLine pattern

/-- Writes about the distribution that a text states. -/
def performCheck (spec : String) (kind : Kind) : Console Unit := do
  let m ← attempt ((Definition.buildAs ⟨kind, spec⟩ none).mapError .rejected)
  writeLines (m.pageLines spec)

/-- The report on draws from a distribution as the settings say. -/
def sampleReport {σ : Type} [WordSource σ] (settings : SamplingSettings)
    (m : Mixture) (unseeded : σ) : Report :=
  match settings.seed with
  | some seed => (m.report settings.count.toNat (Xoshiro256.ofSeed seed)).1
  | none => (m.report settings.count.toNat unseeded).1

/-- Writes a report on draws from a distribution, as JSON or for people. -/
def writeReport (m : Mixture) (r : Report) (json : Bool) : Console Unit :=
  if json then write (r.jsonLine true)
  else do
    writeLine m.text
    writeLine ""
    writeLines r.pageLines

/-- Draws from the distribution that a text stands for and writes a report. -/
def performSample {σ : Type} [WordSource σ] (config : Config) (spec : String)
    (kind : Kind) (json : Bool) (unseeded : σ) : Console Unit := do
  let m ← attempt ((config.resolve spec kind).mapError .rejected)
  writeReport m (sampleReport config.sampling m unseeded) json

/-- Writes about all configured distributions, with an empty line between any
two. -/
def performShow (config : Config) : Console Unit := do
  let built ← attempt (config.buildAll.mapError .invalidConfig)
  if built.isEmpty then writeLine "No distributions configured"
  built.zipIdx.forM fun ((name, m), i) => do
    if i ≠ 0 then writeLine ""
    writeLines (m.pageLines name)

/-- Carries out a command. -/
def Command.perform {σ : Type} [WordSource σ] (command : Command)
    (config : Config) (unseeded : σ) : Console Unit :=
  match command with
  | check spec kind pattern =>
      if pattern then performPattern kind else performCheck spec kind
  | sample spec kind json => performSample config spec kind json unseeded
  | showAll => performShow config

/-- Carries out a command line that could be read. -/
def Arguments.perform {σ : Type} [WordSource σ] (a : Arguments)
    (content : Option String) (unseeded : σ) : Console Unit := do
  attempt a.check
  let config ← attempt (a.options.loadConfig content)
  a.command.perform config unseeded

/-- What a command line leaves behind. -/
def Arguments.transcript {σ : Type} [WordSource σ] (a : Arguments)
    (content : Option String) (unseeded : σ) : Transcript :=
  (a.perform content unseeded).transcript

/-- The output of a command line, or the failure that ends it. -/
def Arguments.run {σ : Type} [WordSource σ] (a : Arguments)
    (content : Option String) (unseeded : σ) : Except Failure String :=
  let t := a.transcript content unseeded
  match t.failure with
  | none => .ok t.written
  | some f => .error f

end ValueMix.CommandLine
