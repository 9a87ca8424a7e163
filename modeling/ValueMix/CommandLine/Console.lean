import ValueMix.CommandLine.Failure

/-!
# Writing on the way

A command writes to standard output piece by piece, and it can fail between two
pieces. A failure does not take back what was written before it. So what a
failing command leaves on standard output depends on the order of its steps.
-/

namespace ValueMix.CommandLine

/-- A program that writes to standard output and can fail. Its state is the text
written so far. -/
abbrev Console (α : Type) := ExceptT Failure (StateM String) α

/-- What a run leaves behind: the text on standard output, and the failure that
ended it, if any. -/
@[ext] structure Transcript where
  written : String
  failure : Option Failure
  deriving DecidableEq

namespace Console

/-- Writes a text. -/
def write (text : String) : Console Unit := modify (· ++ text)

/-- Writes a line. -/
def writeLine (line : String) : Console Unit := write (line ++ "\n")

/-- Writes lines one after another. -/
def writeLines (lines : List String) : Console Unit := lines.forM writeLine

/-- The result of a step that writes nothing, or its failure. -/
def attempt {α : Type} (step : Except Failure α) : Console α :=
  ExceptT.mk (pure step)

/-- What a program leaves behind when nothing was written before it. -/
def transcript (p : Console Unit) : Transcript :=
  match p.run.run "" with
  | (.ok (), written) => ⟨written, none⟩
  | (.error f, written) => ⟨written, some f⟩

/-- A failure does not take back what was written before it. -/
example :
    (do write "a"; attempt (.error .zeroCount) : Console Unit).transcript =
      ⟨"a", some .zeroCount⟩ := by decide

end Console

end ValueMix.CommandLine
