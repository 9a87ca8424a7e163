import ValueMix.Distribution.Basic
import ValueMix.Sampling.WordSource

/-!
# Drawing values

A draw takes one word from the source, makes a number in `[0, 1)` of it and
looks up the cell that owns this number. A distribution with a single entry has
nothing to decide and takes no word.
-/

namespace ValueMix.Distribution

variable {α σ : Type} [WordSource σ]

/-- Draws the index of an entry. -/
def nextIndex (d : Distribution α) (source : σ) : Nat × σ :=
  if d.cells.size = 1 then (0, source)
  else
    let (w, rest) := WordSource.next source
    (d.indexAt (Binary64.ofDraw w), rest)

theorem nextIndex_lt (d : Distribution α) (source : σ) :
    (d.nextIndex source).1 < d.cells.size := by
  unfold nextIndex
  split
  · exact d.cells_pos
  · exact d.indexAt_lt _

/-- Draws a value. -/
def next (d : Distribution α) (source : σ) : α × σ :=
  have hIndex := d.nextIndex_lt source
  (d.cells[(d.nextIndex source).1].value, (d.nextIndex source).2)

/-- The results of `n` draws in a row, and the source behind them. -/
def draws {β : Type} (draw : σ → β × σ) : Nat → σ → List β × σ
  | 0, source => ([], source)
  | n + 1, source =>
      let (x, rest) := draw source
      let (xs, last) := draws draw n rest
      (x :: xs, last)

/-- The indices of `n` successive draws. -/
def sampleIndices (d : Distribution α) (n : Nat) (source : σ) : List Nat × σ :=
  draws d.nextIndex n source

/-- The values of `n` successive draws. -/
def sample (d : Distribution α) (n : Nat) (source : σ) : List α × σ :=
  draws d.next n source

/-- Counts `n` successive draws on top of given counts. -/
@[specialize] def tally (d : Distribution α) :
    Nat → Array Nat → σ → Array Nat × σ
  | 0, counts, source => (counts, source)
  | n + 1, counts, source =>
      let (i, rest) := d.nextIndex source
      tally d n (counts.modify i (· + 1)) rest

end ValueMix.Distribution
