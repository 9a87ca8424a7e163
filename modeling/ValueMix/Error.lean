import ValueMix.Number.RatioText

/-!
# Why a distribution cannot be built

An `Error` names the cause; `Error.message` is its wording. Everything that can
go wrong goes wrong while a distribution is read or built: looking up and
drawing values never fails.
-/

namespace ValueMix

open ValueMix.Number

/-- What is wrong with the form of a distribution's text. Texts of entries are
quoted without the blanks around them. -/
inductive Malformation where
  | unbalancedBrackets
  | emptyEntry
  | missingValue (entry : String)
  | strayText (entry : String)
  | invalidPercentage (text : String)
  | invalidWeight (text : String)
  deriving DecidableEq

/-- The wording of a malformation. -/
def Malformation.message : Malformation → String
  | unbalancedBrackets => "unbalanced brackets"
  | emptyEntry => "empty entry"
  | missingValue entry => "missing value after ':' in `" ++ entry ++ "`"
  | strayText entry =>
      "unexpected text between '%' and ':' in `" ++ entry ++ "`"
  | invalidPercentage text => "invalid percentage `" ++ text ++ "`"
  | invalidWeight text => "invalid weight `" ++ text ++ "`"

/-- Why a distribution cannot be built. -/
inductive Error where
  /-- The weight of an entry is not positive. -/
  | invalidWeight (weight : Rat)
  /-- The fixed probability of an entry is not in `(0, 1]`. -/
  | invalidProbability (probability : Rat)
  | noEntries
  /-- The fixed probabilities sum to more than one. -/
  | overfull (total : Rat)
  /-- The fixed probabilities sum to less than one and no entry takes the
  rest. -/
  | incomplete (total : Rat)
  /-- The fixed probabilities sum to one and leave nothing for the weighted
  entries. -/
  | exhausted (weighted : Nat)
  | malformed (input : String) (fault : Malformation)
  | unrecognizedToken (token pattern : String)
  | invalidPattern (pattern reason : String)
  deriving DecidableEq

/-- The wording of an error. -/
def Error.message : Error → String
  | invalidWeight w =>
      "invalid weight " ++ ratioText w ++ ": weights must be greater than 0"
  | invalidProbability p =>
      "invalid probability " ++ ratioText p ++
        ": must be greater than 0 and at most 1"
  | noEntries => "distribution has no entries"
  | overfull total =>
      "fixed probabilities sum to " ++ ratioText total ++ ", which exceeds 1"
  | incomplete total =>
      "fixed probabilities sum to " ++ ratioText total ++
        " and there are no weighted entries to take the rest"
  | exhausted n =>
      "fixed probabilities already sum to 1, leaving nothing for " ++
        toString n ++ " weighted entries"
  | malformed input fault =>
      "malformed distribution `" ++ input ++ "`: " ++ fault.message
  | unrecognizedToken token pattern =>
      "token `" ++ token ++ "` is not accepted by value pattern `" ++
        pattern ++ "`"
  | invalidPattern pattern reason =>
      "value pattern `" ++ pattern ++ "` does not compile: " ++ reason

end ValueMix
