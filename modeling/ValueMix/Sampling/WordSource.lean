/-!
# Sources of random words

A source yields words of 64 bits one after another. Distributions draw from any
source, so what is said about drawing holds for every stream of words.

* `Script` replays given words in a cycle.
* `Metered` counts the words that are taken from another source.
* `WordStream` yields the values of a function, from a position upwards.
-/

namespace ValueMix

/-- A state from which random words can be taken. -/
class WordSource (σ : Type) where
  /-- The next word, and the state behind it. -/
  next : σ → UInt64 × σ

/-- Words that are replayed in a cycle. -/
structure Script where
  words : Array UInt64
  position : Nat

namespace Script

/-- The script of given words, from the beginning. -/
def ofWords (words : Array UInt64) : Script := ⟨words, 0⟩

/-- The next word of the cycle; a script without words yields zeros. -/
def next (s : Script) : UInt64 × Script :=
  let following := s.position + 1
  (s.words.getD s.position 0,
    { s with position := if following < s.words.size then following else 0 })

instance : WordSource Script := ⟨next⟩

end Script

/-- The words of a function, taken from a position on. -/
structure WordStream where
  word : Nat → UInt64
  position : Nat

instance : WordSource WordStream :=
  ⟨fun s => (s.word s.position, { s with position := s.position + 1 })⟩

/-- A source together with the number of words taken from it. -/
structure Metered (σ : Type) where
  source : σ
  taken : Nat

namespace Metered

variable {σ : Type}

/-- Starts to count the words taken from a source. -/
def ofSource (source : σ) : Metered σ := ⟨source, 0⟩

instance [WordSource σ] : WordSource (Metered σ) where
  next s :=
    let (w, rest) := WordSource.next s.source
    (w, ⟨rest, s.taken + 1⟩)

end Metered

end ValueMix
