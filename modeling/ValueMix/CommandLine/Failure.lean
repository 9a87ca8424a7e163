import ValueMix.Config.Basic
import ValueMix.Text.Pieces

/-!
# Failures of a run

A command line that can be read can still fail. A failure has a chain of
messages: what failed, and below it the causes, the nearest one first. The
report on a failure shows the chain with the causes indented, and numbered if
there are several.
-/

namespace ValueMix.CommandLine

open ValueMix.Text

/-- Why a command line cannot be carried out. -/
inductive Failure where
  /-- There are no draws to make. -/
  | zeroCount
  /-- There is no configuration to show. -/
  | nothingToShow
  | unreadableFile (path : String)
  | malformedFile (path : String)
  /-- The pattern of a kind of values. -/
  | unusablePattern (cause : Error)
  /-- The distribution that the command is about. -/
  | rejected (rejection : Rejection)
  /-- A distribution among all of the configuration. -/
  | invalidConfig (rejection : Rejection)
  deriving DecidableEq

namespace Failure

/-- What failed and why, from the outside to the inside. -/
def messages : Failure → List String
  | zeroCount => ["count must be at least 1"]
  | nothingToShow => ["show requires --config"]
  | unreadableFile path => ["Failed to read config file: " ++ path]
  | malformedFile path =>
      ["Failed to parse config file: " ++ path,
        "Failed to parse TOML configuration"]
  | unusablePattern cause => [cause.message]
  | rejected r => r.messages
  | invalidConfig r => "Configuration validation failed" :: r.messages

/-- A text with spaces in front of every line but the first, also of empty
lines. -/
def hang (width : Nat) (text : String) : String :=
  ("\n" ++ String.ofList (List.replicate width ' ')).intercalate
    ((pieces '\n' text.toList).map String.ofList)

/-- The lines on a single cause. -/
def causeText (cause : String) : String := "    " ++ hang 4 cause ++ "\n"

/-- The lines on one of several causes. -/
def numberedCauseText (cause : String × Nat) : String :=
  let number := toString cause.2
  String.ofList (List.replicate (5 - number.length) ' ') ++ number ++ ": " ++
    hang 7 cause.1 ++ "\n"

/-- The lines on all causes. -/
def causesText : List String → String
  | [] => ""
  | [cause] => "\nCaused by:\n" ++ causeText cause
  | causes =>
      "\nCaused by:\n" ++ String.join (causes.zipIdx.map numberedCauseText)

/-- The report on a failure. -/
def report (f : Failure) : String :=
  match f.messages with
  | [] => ""
  | message :: causes => "Error: " ++ message ++ "\n" ++ causesText causes

end Failure

end ValueMix.CommandLine
