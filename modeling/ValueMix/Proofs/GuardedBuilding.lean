import Mathlib
import ValueMix.Proofs.ByteOffsets
import ValueMix.Proofs.Creation
import ValueMix.Proofs.Numerals

/-!
# Building under guard

A guarded run checks what it relies on: texts are cut only at existing cuts,
sizes never fall below zero, nothing is divided by zero, and the conditions
that a function states about its arguments hold. Where a check fails, the run
is cut off with a `Trap`, which is neither a value nor an error.

Here distributions are built under guard, in the order in which a program
works through the entries: totals are summed up one by one, every share is a
division by the total weight, the last total is set to one, and a table is
assembled from values and totals only under its conditions. From a sound
builder no check fails, and the result is that of `Builder.create`.

## Main results

* `ratioText_eq` — writing a number cuts its digits where there is a cut.
* `assemble_eq` — the conditions on a table hold for every table in order.
* `create_eq` — from a sound builder nothing is trapped.
-/

namespace ValueMix

open ValueMix.Text

/-- Why a run is cut off without a value and without an error. -/
inductive Trap where
  /-- A text was cut outside of its bounds or inside of a character. -/
  | cut
  /-- A size fell below zero. -/
  | underflow
  /-- A number was divided by zero. -/
  | zeroDivisor
  /-- A condition on the arguments of a function did not hold. -/
  | condition
  deriving DecidableEq

/-- A run that ends in a value or an error unless it is cut off. -/
abbrev Guarded (α : Type) := ExceptT Error (Except Trap) α

/-! ## Sound builders -/

namespace Builder

variable {α : Type}

theorem sound_empty : Sound (empty : Builder α) where
  fixed := nofun
  weighted := nofun

theorem Sound.push {b : Builder α} (hb : b.Sound) {e : Entry α}
    (h : e.fault? = none) : (b.push e).Sound where
  fixed := by
    intro g hg
    rcases List.mem_append.1 hg with hOld | hNew
    · exact hb.fixed g hOld
    · exact fixedPart_of_valid h (Option.mem_toList.1 hNew)
  weighted := by
    intro g hg
    rcases List.mem_append.1 hg with hOld | hNew
    · exact hb.weighted g hOld
    · exact weightedPart_of_valid h (Option.mem_toList.1 hNew)

/-- An entry is only added if it is valid. -/
theorem Sound.add {b b' : Builder α} (hb : b.Sound) {e : Entry α}
    (h : b.add e = .ok b') : b'.Sound := by
  rw [add_eq] at h
  cases hFault : e.fault? with
  | none =>
      rw [hFault] at h
      cases h
      exact hb.push hFault
  | some err =>
      rw [hFault] at h
      cases h

theorem Sound.foldlM_add {b b' : Builder α} (hb : b.Sound) {es : List (Entry α)}
    (h : es.foldlM Builder.add b = .ok b') : b'.Sound := by
  induction es generalizing b with
  | nil =>
      cases h
      exact hb
  | cons e es ih =>
      rw [List.foldlM_cons] at h
      cases hAdd : b.add e with
      | error err =>
          rw [hAdd] at h
          cases h
      | ok next =>
          rw [hAdd] at h
          exact ih (hb.add hAdd) h

end Builder

namespace Guarded

variable {α β : Type}

/-! ## Guards -/

/-- A value, or a trap where there is none. -/
def orTrap (t : Trap) : Option α → Except Trap α
  | some a => .ok a
  | none => .error t

/-- Goes on only if a condition holds. -/
def check (p : Prop) [Decidable p] : Except Trap Unit :=
  if p then .ok () else .error .condition

/-- The difference of two sizes. -/
def subtract (m n : ℕ) : Except Trap ℕ :=
  if n ≤ m then .ok (m - n) else .error .underflow

/-- The quotient of two numbers. -/
def divide (p q : ℚ) : Except Trap ℚ :=
  if q = 0 then .error .zeroDivisor else .ok (p / q)

/-- The text between two byte offsets. -/
def slice (cs : List Char) (start stop : ℕ) : Except Trap (List Char) :=
  orTrap .cut (slice? cs start stop)

theorem check_of {p : Prop} [Decidable p] (h : p) : check p = .ok () := if_pos h

theorem subtract_of_le {m n : ℕ} (h : n ≤ m) : subtract m n = .ok (m - n) :=
  if_pos h

theorem divide_of_ne {p q : ℚ} (h : q ≠ 0) : divide p q = .ok (p / q) :=
  if_neg h

/-- A text of three parts has its middle one as a slice. -/
theorem slice_of_eq (front back : List Char) {cs middle : List Char}
    {start stop : ℕ}
    (h : cs = front ++ middle ++ back) (hStart : byteLength front = start)
    (hStop : byteLength (front ++ middle) = stop) :
    slice cs start stop = .ok middle := by
  rw [slice, slice?_eq_some_iff.2 ⟨front, back, h, hStart, hStop⟩]
  rfl

/-! ## Runs that are not cut off -/

/-- The run that ends in a given value or error. -/
def untrapped (r : Except Error α) : Guarded α := ExceptT.mk (.ok r)

theorem untrapped_bind (r : Except Error α) (f : α → Except Error β) :
    untrapped (r >>= f) = untrapped r >>= fun a => untrapped (f a) := by
  cases r <;> rfl

/-- A step that is not cut off hands its value on. -/
theorem ok_bind {ε : Type} (a : α) (f : α → Except ε β) :
    ((Except.ok a : Except ε α) >>= f) = f a := rfl

theorem lift_ok_bind (a : α) (f : α → Guarded β) :
    ((liftM (Except.ok a : Except Trap α) : Guarded α) >>= f) = f a := rfl

theorem mapM_eq_untrapped {f : β → Guarded α} {g : β → Except Error α}
    (h : ∀ b, f b = untrapped (g b)) (bs : List β) :
    bs.mapM f = untrapped (bs.mapM g) := by
  induction bs with
  | nil => rfl
  | cons b bs ih =>
      rw [List.mapM_cons, List.mapM_cons, h b, ih, untrapped_bind]
      congr 1
      funext a
      rw [untrapped_bind]
      rfl

theorem foldlM_eq_untrapped {f : α → β → Guarded α} {g : α → β → Except Error α}
    (h : ∀ a b, f a b = untrapped (g a b)) (bs : List β) (a : α) :
    bs.foldlM f a = untrapped (bs.foldlM g a) := by
  induction bs generalizing a with
  | nil => rfl
  | cons b bs ih =>
      rw [List.foldlM_cons, List.foldlM_cons, h a b, untrapped_bind]
      congr 1
      funext a'
      exact ih a'

theorem mapM_eq_ok {ε : Type} {f : β → Except ε α} {g : β → α} {bs : List β}
    (h : ∀ b ∈ bs, f b = .ok (g b)) : bs.mapM f = .ok (bs.map g) := by
  induction bs with
  | nil => rfl
  | cons b bs ih =>
      have hRest := ih fun b' hb' => h b' (List.mem_cons_of_mem b hb')
      rw [List.mapM_cons, h b List.mem_cons_self, hRest]
      rfl

theorem foldlM_eq_ok {ε : Type} {f : α → β → Except ε α} {g : α → β → α}
    {bs : List β} (h : ∀ a, ∀ b ∈ bs, f a b = .ok (g a b)) (a : α) :
    bs.foldlM f a = .ok (bs.foldl g a) := by
  induction bs generalizing a with
  | nil => rfl
  | cons b bs ih =>
      rw [List.foldlM_cons, h a b List.mem_cons_self]
      exact ih (fun a b' hb' => h a b' (List.mem_cons_of_mem b hb')) (g a b)

/-! ## Numbers in messages -/

/-- The decimal text of `n` divided by `10 ^ places`, cut out of its digits. -/
def scaledText (n places : ℕ) : Except Trap String := do
  let ds := Number.zeroPadded (places + 1) (digits n)
  let point ← subtract (byteLength ds) places
  let whole ← slice ds 0 point
  let fraction ← slice ds point (byteLength ds)
  if places = 0 then return String.ofList whole
  else return String.ofList (whole ++ '.' :: fraction)

/-- The text of a rational number. -/
def ratioText (q : ℚ) : Except Trap String :=
  match Number.places? q with
  | some k => do
      let text ← scaledText (q * 10 ^ k).num.natAbs k
      return Number.signed (q < 0) text
  | none => return toString q.num ++ "/" ++ toString q.den

theorem utf8Size_of_isDigit {c : Char} (h : c.isDigit = true) :
    c.utf8Size = 1 := by
  have hRange := toNat_of_isDigit h
  rw [Char.utf8Size_eq_one_iff, UInt32.le_iff_toNat_le]
  show c.toNat ≤ 127
  omega

/-- Digits take one byte each. -/
theorem byteLength_of_digits {ds : List Char} (h : Digits ds) :
    byteLength ds = ds.length :=
  byteLength_of_ascii fun c hc => utf8Size_of_isDigit (h c hc)

theorem scaledText_eq (n places : ℕ) :
    scaledText n places = .ok (Number.scaledText n places) := by
  unfold scaledText Number.scaledText
  have hLength : places + 1 ≤
      (Number.zeroPadded (places + 1) (digits n)).length := by
    simp only [Number.zeroPadded, List.length_append, List.length_replicate]
    omega
  have hDigits : Digits (Number.zeroPadded (places + 1) (digits n)) :=
    (digits_zeros _).append (digits_digits n)
  generalize Number.zeroPadded (places + 1) (digits n) = ds at hLength hDigits
  have hBytes : byteLength ds = ds.length := byteLength_of_digits hDigits
  have hPoint : byteLength (ds.take (ds.length - places)) =
      ds.length - places := by
    rw [byteLength_of_digits fun c hc => hDigits c (List.mem_of_mem_take hc),
      List.length_take]
    omega
  have hWhole : slice ds 0 (ds.length - places) =
      .ok (ds.take (ds.length - places)) :=
    slice_of_eq [] _ (List.take_append_drop _ ds).symm rfl hPoint
  have hFraction : slice ds (ds.length - places) ds.length =
      .ok (ds.drop (ds.length - places)) := by
    refine slice_of_eq _ [] ?_ hPoint ?_
    · rw [List.append_nil, List.take_append_drop]
    · rw [List.take_append_drop, hBytes]
  simp only [hBytes]
  rw [subtract_of_le (by omega), ok_bind, hWhole, ok_bind, hFraction, ok_bind]
  by_cases hPlaces : places = 0
  · rw [if_pos hPlaces, if_pos hPlaces]
    rfl
  · rw [if_neg hPlaces, if_neg hPlaces]
    rfl

theorem ratioText_eq (q : ℚ) : ratioText q = .ok (Number.ratioText q) := by
  unfold ratioText Number.ratioText
  cases Number.places? q with
  | none => rfl
  | some k =>
      simp only
      rw [scaledText_eq, ok_bind]
      rfl

/-! ## Totals -/

/-- A table under construction: the total so far and all totals up to it. -/
structure Tally where
  total : ℚ
  table : List ℚ

namespace Tally

/-- No share has been counted. -/
def zero : Tally := ⟨0, []⟩

/-- Counts one more share. -/
def push (t : Tally) (share : ℚ) : Tally :=
  ⟨t.total + share, t.table ++ [t.total + share]⟩

/-- Counting some shares appends their running sums. -/
theorem foldl_push (t : Tally) (shares : List ℚ) :
    shares.foldl push t =
      ⟨t.total + shares.sum,
        t.table ++ Distribution.runningSums t.total shares⟩ := by
  induction shares generalizing t with
  | nil => simp [Distribution.runningSums]
  | cons p shares ih =>
      rw [List.foldl_cons, ih]
      simp [push, Distribution.runningSums, add_assoc]

end Tally

/-- Counts the share of a weighted entry, as messages about it are written. -/
def countWeighted (rest weight : ℚ) (t : Tally) (g : α × ℚ) :
    Except Trap Tally := do
  let share ← divide (rest * g.2) weight
  let _ ← ratioText g.2
  let _ ← ratioText share
  return t.push share

theorem countWeighted_eq {weight : ℚ} (h : weight ≠ 0) (rest : ℚ) (t : Tally)
    (g : α × ℚ) :
    countWeighted rest weight t g = .ok (t.push (rest * g.2 / weight)) := by
  rw [countWeighted, divide_of_ne h, ok_bind, ratioText_eq, ok_bind,
    ratioText_eq]
  rfl

/-! ## Tables -/

/-- The threshold of a probability, which has to be positive and at most one. -/
def threshold (p : ℚ) : Except Trap Binary64 := do
  check (0 < p ∧ p ≤ 1)
  return Binary64.threshold p

/-- The distribution with given cells. -/
def ofCells (cells : List (Cell α)) : Except Trap (Distribution α) :=
  if h : 0 < cells.toArray.size then .ok ⟨cells.toArray, h⟩
  else .error .condition

/-- The distribution of values with given cumulative probabilities. There has
to be a value, every value has to have a probability, and the last probability
has to be one. -/
def assemble (values : List α) (cumulatives : List ℚ) :
    Except Trap (Distribution α) := do
  check (values.length ≠ 0)
  check (values.length = cumulatives.length)
  check (cumulatives.getLast? = some 1)
  let thresholds ← cumulatives.mapM threshold
  ofCells ((values.zip (cumulatives.zip thresholds)).map fun (v, p, t) =>
    ⟨v, p, t⟩)

/-- A table that is in order meets all conditions. -/
theorem assemble_eq {d : Distribution α} (h : d.Tabulated) :
    assemble d.values d.cumulatives = .ok d := by
  have hSize : d.values.length ≠ 0 := by
    rw [Distribution.length_values]
    exact d.cells_pos.ne'
  have hSame : d.values.length = d.cumulatives.length := by
    rw [Distribution.length_values, Distribution.length_cumulatives]
  have hThresholds : d.cumulatives.mapM threshold =
      .ok (d.cumulatives.map Binary64.threshold) := by
    refine mapM_eq_ok fun p hp => ?_
    rw [threshold, check_of ⟨h.cumulative_pos hp, h.cumulative_le_one hp⟩]
    rfl
  have hCells : (d.values.zip (d.cumulatives.zip
      (d.cumulatives.map Binary64.threshold))).map
        (fun (v, p, t) => (⟨v, p, t⟩ : Cell α)) = d.cells.toList := by
    simp only [Distribution.values, Distribution.cumulatives, List.map_map,
      List.zip_map']
    conv_rhs => rw [← List.map_id d.cells.toList]
    refine List.map_congr_left fun c hc => ?_
    show (⟨c.value, c.upper, Binary64.threshold c.upper⟩ : Cell α) = c
    rw [← h.thresholds c hc]
  unfold assemble
  rw [check_of hSize, ok_bind, check_of hSame, ok_bind, check_of h.last,
    ok_bind, hThresholds, ok_bind, hCells, ofCells, dif_pos d.cells_pos]

/-! ## Creation -/

/-- The totals of the fixed entries. -/
def fixedTally (b : Builder α) : Tally :=
  (b.fixed.map Prod.snd).foldl Tally.push .zero

/-- The distribution of entries that fit together. -/
def tabulate (b : Builder α) : Except Trap (Distribution α) := do
  let fixed := fixedTally b
  let all ←
    b.weighted.foldlM (countWeighted (1 - fixed.total) b.totalWeight) fixed
  let _ ← ratioText fixed.total
  assemble ((b.fixed ++ b.weighted).map Prod.fst)
    (all.table.modifyLast fun _ => 1)

/-- The distribution of the entries of a builder. -/
def create (b : Builder α) : Guarded (Distribution α) :=
  let total := (fixedTally b).total
  if b.isEmpty then throw .noEntries
  else if 1 < total then throw (.overfull total)
  else if b.weighted.isEmpty && total < 1 then throw (.incomplete total)
  else if !b.weighted.isEmpty && total = 1 then
    throw (.exhausted b.weighted.length)
  else liftM (tabulate b)

theorem fixedTally_eq (b : Builder α) :
    fixedTally b =
      ⟨b.fixedTotal, Distribution.runningSums 0 (b.fixed.map Prod.snd)⟩ := by
  rw [fixedTally, Tally.foldl_push, Builder.fixedTotal_eq_sum]
  simp [Tally.zero]

theorem fixedTally_total (b : Builder α) :
    (fixedTally b).total = b.fixedTotal := by
  rw [fixedTally_eq]

/-- Counting the weighted entries behind the fixed ones yields the running sums
of all marginals. -/
theorem foldlM_countWeighted {b : Builder α} (hb : b.Sound) :
    ∃ total, b.weighted.foldlM (countWeighted (1 - b.fixedTotal) b.totalWeight)
        (fixedTally b) =
      .ok ⟨total, Distribution.runningSums 0 b.claimedMarginals⟩ := by
  let share (g : α × ℚ) : ℚ := (1 - b.fixedTotal) * g.2 / b.totalWeight
  have hCount : ∀ t : Tally, ∀ g ∈ b.weighted,
      countWeighted (1 - b.fixedTotal) b.totalWeight t g =
        .ok (t.push (share g)) := by
    intro t g hg
    have hPos := hb.totalWeight_pos (List.ne_nil_of_mem hg)
    exact countWeighted_eq hPos.ne' _ t g
  have hAll : b.weighted.foldl (fun t g => t.push (share g)) (fixedTally b) =
      b.claimedMarginals.foldl Tally.push .zero := by
    rw [Builder.claimedMarginals, List.foldl_append, List.foldl_map]
    rfl
  rw [foldlM_eq_ok hCount, hAll, Tally.foldl_push]
  exact ⟨_, by rw [Tally.zero, List.nil_append]⟩

/-- The last total of entries that fit is one, so setting it to one leaves the
table as it is. -/
theorem modifyLast_runningSums {ps : List ℚ} (hNe : ps ≠ [])
    (hSum : ps.sum = 1) :
    (Distribution.runningSums 0 ps).modifyLast (fun _ => 1) =
      Distribution.runningSums 0 ps := by
  have hLast := Distribution.getLast?_runningSums 0 hNe
  rw [hSum, zero_add] at hLast
  obtain ⟨front, hFront⟩ := List.getLast?_eq_some_iff.1 hLast
  rw [hFront, List.modifyLast_concat]

/-- The table of entries that fit is assembled under all conditions. -/
theorem tabulate_of_fits {b : Builder α} (hFits : b.Fits) (hb : b.Sound) :
    tabulate b =
      .ok (Distribution.ofMarginals b.marginals hFits.marginals_ne_nil) := by
  obtain ⟨total, hCount⟩ := foldlM_countWeighted hb
  have hSum := hFits.sum_marginals hb
  have hTabulated :=
    Distribution.tabulated_ofMarginals hFits.marginals_ne_nil hSum
    (hFits.marginals_pos hb)
  have hValues :
      (Distribution.ofMarginals b.marginals hFits.marginals_ne_nil).values =
        (b.fixed ++ b.weighted).map Prod.fst := by
    rw [Distribution.values_ofMarginals, Builder.map_fst_marginals,
      List.map_append]
  have hNe : b.claimedMarginals ≠ [] := by
    rw [← Builder.map_snd_marginals]
    exact fun h => hFits.marginals_ne_nil (List.map_eq_nil_iff.1 h)
  have hCumulatives :=
    Distribution.cumulatives_ofMarginals hFits.marginals_ne_nil hSum
  rw [Builder.map_snd_marginals] at hSum hCumulatives
  have hAssemble : assemble ((b.fixed ++ b.weighted).map Prod.fst)
      ((Distribution.runningSums 0 b.claimedMarginals).modifyLast fun _ => 1) =
        .ok (Distribution.ofMarginals b.marginals hFits.marginals_ne_nil) := by
    rw [modifyLast_runningSums hNe hSum, ← hCumulatives, ← hValues]
    exact assemble_eq hTabulated
  simp only [tabulate, fixedTally_total]
  rw [hCount, ok_bind, ratioText_eq, ok_bind]
  exact hAssemble

/-- **Building under guard.** From a sound builder nothing is trapped: there is
a total weight to divide by wherever there is a weighted entry, and every table
that is assembled meets the conditions on tables. What comes out is what the
builder creates. -/
theorem create_eq {b : Builder α} (hb : b.Sound) :
    create b = untrapped b.create := by
  have hTable : ∀ d, b.create = .ok d →
      (liftM (tabulate b) : Guarded (Distribution α)) = untrapped (.ok d) := by
    intro d hCreate
    obtain ⟨hFits, rfl⟩ := (Builder.create_eq_ok_iff b d).1 hCreate
    rw [tabulate_of_fits hFits hb]
    rfl
  -- both sides check the same conditions in the same order
  revert hTable
  unfold create Builder.create
  simp only [fixedTally_total]
  split_ifs
  · exact fun _ => rfl
  · exact fun _ => rfl
  · exact fun _ => rfl
  · exact fun _ => rfl
  · exact fun hTable => hTable _ rfl

end Guarded

end ValueMix
