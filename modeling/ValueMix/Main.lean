import ValueMix.CommandLine.Run

/-!
# The program

Reads the command line, the environment and the configuration file, runs the
command and writes its output. An unusable command line ends with code 2, a
failure with code 1.
-/

namespace ValueMix

/-- How to use the program. -/
def usage : String :=
  "Usage: fuzzy [OPTIONS] <COMMAND>

Commands:
  check <SPEC> [-p <PARSER>] [--pattern]  Show the distribution that a text states
  sample <SPEC> [-p <PARSER>] [--json]    Compare draws with the expected frequencies
  show                                    Show all configured distributions

Options:
  -c, --config <PATH>   Configuration file [env: FUZZY_CONFIG]
      --seed <SEED>     Seed of the random words
  -n, --count <COUNT>   Number of draws
      --debug           Say what was loaded

Parsers: integer (standard), size, word
"

/-- The content of a file, if it can be read. -/
def contentOf (path : String) : IO (Option String) := do
  try
    let text ← IO.FS.readFile path
    return some text
  catch _ => return none

/-- A seed of which nothing is known. -/
def freshSeed : IO UInt64 := do
  let bytes ← IO.getRandomBytes 8
  return bytes.toList.foldl (fun w b => w * 256 + b.toUInt64) 0

/-- What was loaded, in a line. -/
def loadedText (config : Config) : String :=
  "configuration loaded: " ++ toString config.distributions.entries.length ++
    " distributions, " ++ toString config.sampling.count ++ " draws\n"

end ValueMix

open ValueMix in
def main (args : List String) : IO UInt32 := do
  let environment ← IO.getEnv "FUZZY_CONFIG"
  let stdout ← IO.getStdout
  let stderr ← IO.getStderr
  match CommandLine.Arguments.read? environment args with
  | none =>
      stderr.putStr usage
      return 2
  | some a =>
      let content ← match a.options.config with
        | some path => contentOf path
        | none => pure none
      if a.options.debug then
        if let .ok config := a.options.loadConfig content then
          stderr.putStr (loadedText config)
      let seed ← freshSeed
      let t := a.transcript content (Xoshiro256.ofSeed seed)
      stdout.putStr t.written
      match t.failure with
      | none => return 0
      | some failure =>
          stderr.putStr failure.report
          return 1
