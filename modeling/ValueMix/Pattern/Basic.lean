import ValueMix.Text.Blank

/-!
# Patterns

A pattern describes a set of texts. `Pattern.Matches` is the meaning of
patterns, rule by rule. `Pattern.accepts` decides it by residuals: what remains
to be matched behind the first character is a finite list of alternatives, and a
text is accepted if one of the alternatives left at its end matches nothing
more.
-/

namespace ValueMix

open ValueMix.Text

/-- A set of characters: those in some range, or those in none. -/
structure CharSet where
  ranges : List (Nat × Nat)
  negated : Bool
  deriving DecidableEq

namespace CharSet

/-- The set of a single character. -/
def single (c : Char) : CharSet := ⟨[(c.toNat, c.toNat)], false⟩

/-- The white space characters. -/
def blank : CharSet := ⟨blankRanges, false⟩

/-- Every character but the line feed. -/
def anyInLine : CharSet := ⟨[(10, 10)], true⟩

def contains (s : CharSet) (c : Char) : Bool :=
  (s.ranges.any fun r => r.1 ≤ c.toNat && c.toNat ≤ r.2) != s.negated

end CharSet

inductive Pattern where
  /-- Matches no text. -/
  | never
  /-- Matches the empty text. -/
  | nothing
  | char (set : CharSet)
  | seq (first second : Pattern)
  | alt (left right : Pattern)
  | star (body : Pattern)
  deriving DecidableEq

namespace Pattern

/-! ## Meaning -/

/-- The texts that a pattern describes. -/
inductive Matches : Pattern → List Char → Prop where
  | nothing : Matches .nothing []
  | char {s : CharSet} {c : Char} : s.contains c = true → Matches (.char s) [c]
  | seq {p q : Pattern} {xs ys : List Char} :
      Matches p xs → Matches q ys → Matches (.seq p q) (xs ++ ys)
  | left {p q : Pattern} {xs : List Char} : Matches p xs → Matches (.alt p q) xs
  | right {p q : Pattern} {xs : List Char} :
      Matches q xs → Matches (.alt p q) xs
  | starNil {p : Pattern} : Matches (.star p) []
  | starCons {p : Pattern} {xs ys : List Char} :
      Matches p xs → Matches (.star p) ys → Matches (.star p) (xs ++ ys)

/-! ## Decision -/

/-- Whether a pattern matches the empty text. -/
def nullable : Pattern → Bool
  | never => false
  | nothing => true
  | char _ => false
  | seq p q => p.nullable && q.nullable
  | alt p q => p.nullable || q.nullable
  | star _ => true

/-- The alternatives for the text behind a first character. -/
def residuals (c : Char) : Pattern → List Pattern
  | never => []
  | nothing => []
  | char s => if s.contains c then [nothing] else []
  | seq p q =>
      (residuals c p).map (seq · q) ++ if p.nullable then residuals c q else []
  | alt p q => residuals c p ++ residuals c q
  | star p => (residuals c p).map (seq · (star p))

/-- The alternatives left behind a character, each once. -/
def advance (c : Char) (ps : List Pattern) : List Pattern :=
  (ps.flatMap (residuals c)).eraseDups

/-- Whether one of several patterns matches a text. -/
def anyAccepts : List Pattern → List Char → Bool
  | ps, [] => ps.any nullable
  | ps, c :: rest => anyAccepts (advance c ps) rest

/-- Whether a pattern matches a whole text. -/
def accepts (p : Pattern) (cs : List Char) : Bool := anyAccepts [p] cs

/-! ## Combinations -/

/-- One pattern after another. -/
def sequence : List Pattern → Pattern
  | [] => nothing
  | [p] => p
  | p :: ps => seq p (sequence ps)

/-- One pattern or another. -/
def choice : List Pattern → Pattern
  | [] => never
  | [p] => p
  | p :: ps => alt p (choice ps)

/-- A pattern or the empty text. -/
def optional (p : Pattern) : Pattern := alt p nothing

/-- A pattern up to `n` times. -/
def upTo (p : Pattern) : Nat → Pattern
  | 0 => nothing
  | 1 => optional p
  | n + 1 => optional (seq p (upTo p n))

/-- A pattern at least `low` times, and at most `high` times if there is a
limit. -/
def repeated (p : Pattern) (low : Nat) (high : Option Nat) : Pattern :=
  let more := match high with
    | none => [star p]
    | some n => if n ≤ low then [] else [upTo p (n - low)]
  sequence (List.replicate low p ++ more)

end Pattern

end ValueMix
