import ValueMix.Spec.Kind

/-!
# Command lines

A command line is a command with its options and values: `check SPEC`,
`sample SPEC` or `show`. Four options belong to every command and may also stand
in front of it; behind the command they count more. An option with a value takes
it from the same argument (`--seed=7`, `-n7`, `-n=7`) or from the next one,
which then must not begin with a dash. Behind `--` there are only values.

`Arguments.read?` reads a command line. It reads nothing that is incomplete or
ambiguous: unknown, repeated or missing parts make a command line unusable as a
whole.
-/

namespace ValueMix.CommandLine

/-! ## Results -/

/-- The options that every command has. -/
structure Options where
  /-- The path of the configuration file. -/
  config : Option String
  seed : Option UInt64
  count : Option UInt64
  debug : Bool
  deriving DecidableEq

/-- What to do. -/
inductive Command where
  /-- Show the distribution that a text states, or the pattern of such texts. -/
  | check (spec : String) (kind : Kind) (pattern : Bool)
  /-- Draw from a distribution and report on the draws. -/
  | sample (spec : String) (kind : Kind) (json : Bool)
  /-- Show all configured distributions. -/
  | showAll
  deriving DecidableEq

/-- A command with the options of the command line. -/
structure Arguments where
  options : Options
  command : Command
  deriving DecidableEq

/-! ## Flags -/

/-- The flags that introduce options. -/
inductive Flag where
  | config
  | seed
  | count
  | debug
  | parser
  | pattern
  | json
  deriving DecidableEq

namespace Flag

/-- The name behind two dashes. -/
def long : Flag → String
  | config => "config"
  | seed => "seed"
  | count => "count"
  | debug => "debug"
  | parser => "parser"
  | pattern => "pattern"
  | json => "json"

/-- The letter behind one dash. -/
def short? : Flag → Option Char
  | config => some 'c'
  | count => some 'n'
  | parser => some 'p'
  | _ => none

/-- Whether the flag has a value. -/
def takesValue : Flag → Bool
  | debug => false
  | pattern => false
  | json => false
  | _ => true

/-- The flags of every command. -/
def common : List Flag := [config, seed, count, debug]

end Flag

/-! ## Splitting arguments -/

/-- What stands at one level of a command line: flags with the text of their
values, and values without a flag. -/
structure Level where
  settings : List (Flag × String)
  values : List String

namespace Level

def empty : Level := ⟨[], []⟩

/-- Adds a flag, unless it is there already. -/
def set? (l : Level) (f : Flag) (value : String) : Option Level :=
  if (l.settings.lookup f).isSome then none
  else some { l with settings := (f, value) :: l.settings }

def addValue (l : Level) (value : String) : Level :=
  { l with values := l.values ++ [value] }

def value? (l : Level) (f : Flag) : Option String := l.settings.lookup f

def has (l : Level) (f : Flag) : Bool := (l.value? f).isSome

end Level

/-- An argument that stands for itself or is part of a flag. -/
inductive Argument where
  /-- A value; a single dash is one, too. -/
  | value (s : String)
  /-- A flag with the value in the same argument, if there is one. -/
  | flag (f : Flag) (attached : Option String)
  /-- The end of all flags. -/
  | separator

/-- The text without an equals sign in front. -/
def dropEquals : List Char → List Char
  | '=' :: rest => rest
  | cs => cs

/-- The argument that a text is, if only some flags are known. -/
def Argument.ofText? (known : List Flag) (s : String) : Option Argument :=
  match s.toList with
  | ['-', '-'] => some .separator
  | '-' :: '-' :: rest => do
      let name := String.ofList (rest.takeWhile (· ≠ '='))
      let f ← known.find? fun f => f.long = name
      some (.flag f (if rest.contains '=' then
        some (String.ofList ((rest.dropWhile (· ≠ '=')).drop 1)) else none))
  | ['-', c] => do
      let f ← known.find? fun f => f.short? = some c
      some (.flag f none)
  | '-' :: c :: rest => do
      let f ← known.find? fun f => f.short? = some c
      some (.flag f (some (String.ofList (dropEquals rest))))
  | _ => some (.value s)

/-- Whether an argument can be the value of the flag in front of it. -/
def canFollow (s : String) : Bool := s = "-" || s.toList.head? ≠ some '-'

/-- How far the flags and values of a level go. -/
inductive Extent where
  /-- Up to the first value, which names the command. -/
  | toCommand
  /-- Up to the end. -/
  | toEnd
  deriving DecidableEq

/-- Reads a level of a command line on top of what was read. The result also
holds the arguments behind the level. -/
def readLevel (known : List Flag) (extent : Extent) : Level → List String →
    Option (Level × List String)
  | level, [] => some (level, [])
  | level, s :: rest =>
      match Argument.ofText? known s with
      | none => none
      | some .separator =>
          if extent = .toEnd then
            some ({ level with values := level.values ++ rest }, [])
          else none
      | some (.value v) =>
          if extent = .toEnd then readLevel known extent (level.addValue v) rest
          else some (level.addValue v, rest)
      | some (.flag f attached) =>
          if f.takesValue then
            match attached, rest with
            | some v, rest => do
                let level ← level.set? f v
                readLevel known extent level rest
            | none, v :: rest =>
                if canFollow v then do
                  let level ← level.set? f v
                  readLevel known extent level rest
                else none
            | none, [] => none
          else if attached.isSome then none
          else do
            let level ← level.set? f ""
            readLevel known extent level rest

/-! ## Meaning of options -/

/-- The value of an option that need not be given: none if it is missing, an
error if it cannot be read. -/
def optional? {α : Type} (read : String → Option α) :
    Option String → Option (Option α)
  | none => some none
  | some s => (read s).map some

/-- A path, which must not be empty. -/
def path? (s : String) : Option String := if s.isEmpty then none else some s

/-- A word of 64 bits. -/
def word? (s : String) : Option UInt64 := Text.readWord s.toList

/-- The common options of a level. -/
def Level.options? (l : Level) : Option Options := do
  let config ← optional? path? (l.value? .config)
  let seed ← optional? word? (l.value? .seed)
  let count ← optional? word? (l.value? .count)
  some ⟨config, seed, count, l.has .debug⟩

/-- The kind of values that a level asks for. -/
def Level.kind? (l : Level) : Option Kind :=
  match l.value? .parser with
  | some name => Kind.ofName? name
  | none => some .integer

/-- The options of two levels of which the first one counts more. -/
def Options.over (inner outer : Options) : Options where
  config := inner.config.or outer.config
  seed := inner.seed.or outer.seed
  count := inner.count.or outer.count
  debug := inner.debug || outer.debug

/-- The path that the environment offers. It is looked at unless both levels
have a path. -/
def standby? (inner outer : Options) (environment : Option String) :
    Option (Option String) :=
  if inner.config.isSome && outer.config.isSome then some none
  else optional? path? environment

/-- A command by name: the flags that it has beside the common ones, and the
command that flags and values make. -/
structure CommandForm where
  name : String
  flags : List Flag
  read : Level → Option Command

/-- The form of commands that take a text and a kind of values. -/
def specForm (name : String) (flag : Flag)
    (make : String → Kind → Bool → Command) : CommandForm where
  name := name
  flags := [.parser, flag]
  read l :=
    match l.values with
    | [spec] => l.kind?.map fun kind => make spec kind (l.has flag)
    | _ => none

/-- All commands. -/
def commandForms : List CommandForm :=
  [specForm "check" .pattern .check, specForm "sample" .json .sample,
    ⟨"show", [], fun l => if l.values.isEmpty then some .showAll else none⟩]

/-- Reads a command line. A path that the command line lacks is taken from the
environment. -/
def Arguments.read? (environment : Option String) (args : List String) :
    Option Arguments := do
  let (outer, rest) ← readLevel Flag.common .toCommand .empty args
  let name ← outer.values.head?
  let form ← commandForms.find? fun form => form.name = name
  let (inner, _) ← readLevel (Flag.common ++ form.flags) .toEnd .empty rest
  let command ← form.read inner
  let outerOptions ← outer.options?
  let innerOptions ← inner.options?
  let standby ← standby? innerOptions outerOptions environment
  let options := innerOptions.over outerOptions
  some ⟨{ options with config := options.config.or standby }, command⟩

end ValueMix.CommandLine
