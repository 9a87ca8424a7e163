import ValueMix.Sampling.WordSource

/-!
# The generator xoshiro256++

A generator with four words of state. It is seeded with a single word, from
which the generator SplitMix64 makes the four words of the initial state.
-/

namespace ValueMix

/-- A word rotated to the left by `k` bits, for `k` between 1 and 63. -/
def rotateLeft (x k : UInt64) : UInt64 := (x <<< k) ||| (x >>> (64 - k))

/-- The state of the generator SplitMix64. -/
structure SplitMix64 where
  state : UInt64

/-- Adds a constant to the state and mixes the bits of the sum. -/
def SplitMix64.next (s : SplitMix64) : UInt64 × SplitMix64 :=
  let z0 := s.state + 0x9e3779b97f4a7c15
  let z1 := (z0 ^^^ (z0 >>> 30)) * 0xbf58476d1ce4e5b9
  let z2 := (z1 ^^^ (z1 >>> 27)) * 0x94d049bb133111eb
  (z2 ^^^ (z2 >>> 31), ⟨z0⟩)

instance : WordSource SplitMix64 := ⟨SplitMix64.next⟩

/-- The state of the generator xoshiro256++. -/
structure Xoshiro256 where
  s0 : UInt64
  s1 : UInt64
  s2 : UInt64
  s3 : UInt64

namespace Xoshiro256

/-- The initial state for a seed: the first four words of SplitMix64. -/
def ofSeed (seed : UInt64) : Xoshiro256 :=
  let (a, g) := SplitMix64.next ⟨seed⟩
  let (b, g) := g.next
  let (c, g) := g.next
  let (d, _) := g.next
  ⟨a, b, c, d⟩

/-- The next word and state. -/
def next (s : Xoshiro256) : UInt64 × Xoshiro256 :=
  let word := rotateLeft (s.s0 + s.s3) 23 + s.s0
  let s2 := s.s2 ^^^ s.s0
  let s3 := s.s3 ^^^ s.s1
  let s1 := s.s1 ^^^ s2
  let s0 := s.s0 ^^^ s3
  (word, ⟨s0, s1, s2 ^^^ (s.s1 <<< 17), rotateLeft s3 45⟩)

instance : WordSource Xoshiro256 := ⟨next⟩

end Xoshiro256

end ValueMix
