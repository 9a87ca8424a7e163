import Mathlib
import ValueMix.Proofs.BuiltIn
import ValueMix.Proofs.GuardedBuilding

/-!
# Reading under guard

Here distributions are read with byte offsets: brackets and signs are cut off
as bytes, an entry is cut where its first colon and its first percent sign are
found, and a unit letter is cut off as the last byte of a size. Every cut and
every division is guarded, and so is the building of the distribution.

The offsets come from searches in the text that is cut, and what is cut off is
ASCII. So all cuts exist, whatever other characters the text has.

## Main results

* `stripBrackets?_eq`, `readDecimal_eq`, `readSize_eq`, `readEntry_eq` — the
  functions that cut, one by one.
* `read_untrapped` — reading a text is never cut off.
-/

namespace ValueMix.Guarded

open ValueMix.Text

/-! ## Cuts at a separator -/

section Cuts

variable {sep : Char} {cs : List Char} (h : sep ∈ cs)

include h

/-- The text before a separator is cut off where the separator is found. -/
theorem slice_before :
    slice cs 0 (byteLength (before sep cs)) = .ok (before sep cs) := by
  refine slice_of_eq [] (sep :: after sep cs) ?_ rfl rfl
  exact (before_append_after h).symm

/-- The text behind a separator of one byte begins a byte later. -/
theorem slice_after (hSize : sep.utf8Size = 1) :
    slice cs (byteLength (before sep cs) + 1) (byteLength cs) =
      .ok (after sep cs) := by
  have hText := before_append_after h
  refine slice_of_eq (before sep cs ++ [sep]) [] ?_ ?_ ?_
  · simpa using hText.symm
  · simp [hSize]
  · conv_rhs => rw [← hText]
    simp

theorem byteLength_before_lt : byteLength (before sep cs) < byteLength cs := by
  have hPos := sep.utf8Size_pos
  conv_rhs => rw [← before_append_after h]
  rw [byteLength_append, byteLength_cons]
  omega

/-- A separator that has been found is the first one of any longer text. -/
theorem before_append_of_mem (ys : List Char) :
    before sep (cs ++ ys) = before sep cs := by
  conv_lhs => rw [← before_append_after h]
  rw [List.append_assoc]
  exact before_append (not_mem_before sep cs) _

end Cuts

/-- A separator that does not occur in front is found behind it. -/
theorem before_append_of_not_mem {sep : Char} {xs : List Char} (h : sep ∉ xs)
    (ys : List Char) : before sep (xs ++ ys) = xs ++ before sep ys := by
  refine List.takeWhile_append_of_pos fun c hc => ?_
  have hNe : c ≠ sep := fun hEq => h (hEq ▸ hc)
  simpa using hNe

/-- A search that stops behind `front` finds what is in `front`. -/
theorem filter_offset?_append (sep : Char) (front back : List Char) :
    (offset? sep (front ++ back)).filter (· < byteLength front) =
      offset? sep front := by
  by_cases hFront : sep ∈ front
  · have hLt := byteLength_before_lt hFront
    rw [offset?_of_mem (List.mem_append_left _ hFront),
      before_append_of_mem hFront,
      offset?_of_mem hFront, Option.filter_some, if_pos (by simpa using hLt)]
  · rw [offset?_of_not_mem hFront]
    by_cases hMem : sep ∈ front ++ back
    · have hLater :
          ¬ byteLength (before sep (front ++ back)) < byteLength front := by
        rw [before_append_of_not_mem hFront, byteLength_append]
        omega
      rw [offset?_of_mem hMem, Option.filter_some,
        if_neg (by simpa using hLater)]
    · rw [offset?_of_not_mem hMem, Option.filter_none]

/-- The text behind the first character, if that is a given one of one byte. -/
theorem slice_one {a : Char} (hSize : a.utf8Size = 1) (rest : List Char) :
    slice (a :: rest) 1 (byteLength (a :: rest)) = .ok rest := by
  refine slice_of_eq [a] [] ?_ ?_ rfl
  · rw [List.append_nil, List.singleton_append]
  · rw [byteLength_cons, hSize, byteLength_nil]

/-- The text without its last character, if that is one of one byte. -/
theorem slice_concat {a : Char} (hSize : a.utf8Size = 1) (front : List Char) :
    slice (front ++ [a]) 0 (byteLength (front ++ [a]) - 1) = .ok front := by
  refine slice_of_eq [] [a] rfl rfl ?_
  rw [List.nil_append, byteLength_append, byteLength_cons, hSize,
    byteLength_nil]
  omega

/-! ## Brackets -/

/-- The text between the brackets, if a text in brackets has room for both of
them, or all of it, if there are none. -/
def stripBrackets? (cs : List Char) : Except Trap (Option (List Char)) := do
  let text := trim cs
  if text.head? = some '[' ∧ text.getLast? = some ']' ∧ 2 ≤ byteLength text then
    let stop ← subtract (byteLength text) 1
    let body ← slice text 1 stop
    return some body
  else if text.head? ≠ some '[' ∧ text.getLast? ≠ some ']' then return some text
  else return none

theorem stripBrackets?_eq (cs : List Char) :
    stripBrackets? cs = .ok (Codec.stripBrackets? cs) := by
  unfold stripBrackets? Codec.stripBrackets?
  generalize trim cs = text
  by_cases hOpen : text.head? = some '['
  · obtain ⟨rest, rfl⟩ := List.head?_eq_some_iff.1 hOpen
    by_cases hClose : rest.getLast? = some ']'
    · obtain ⟨body, rfl⟩ := List.getLast?_eq_some_iff.1 hClose
      have hLast : ('[' :: (body ++ [']'])).getLast? = some ']' := by
        rw [← List.cons_append, List.getLast?_concat]
      have hRoom : 2 ≤ byteLength ('[' :: (body ++ [']'])) := by
        simp only [byteLength_cons, byteLength_append, byteLength_nil]
        have hOne : '['.utf8Size = 1 ∧ ']'.utf8Size = 1 := by decide
        omega
      have hBody : slice ('[' :: (body ++ [']'])) 1
          (byteLength ('[' :: (body ++ [']'])) - 1) = .ok body := by
        refine slice_of_eq ['['] [']'] rfl rfl ?_
        simp only [byteLength_cons, byteLength_append, byteLength_nil]
        have hOne : ']'.utf8Size = 1 := by decide
        omega
      simp only
      rw [if_pos ⟨hOpen, hLast, hRoom⟩, if_pos hClose,
        subtract_of_le (by omega), List.dropLast_concat, ok_bind, hBody]
      rfl
    · have hLast : ('[' :: rest).getLast? ≠ some ']' := by
        cases rest with
        | nil => decide
        | cons c rest => rwa [List.getLast?_cons_cons]
      simp only
      rw [if_neg fun h => hLast h.2.1, if_neg fun h => h.1 hOpen, if_neg hClose]
      rfl
  · by_cases hClose : text.getLast? = some ']'
    · simp only [hOpen, hClose, false_and, if_false, ne_eq, not_true_eq_false,
        and_false]
      split
      · exact absurd rfl hOpen
      · rw [if_pos hClose]
        rfl
    · simp only [hOpen, hClose, false_and, if_false, ne_eq, not_false_eq_true,
        and_self, if_true]
      split
      · exact absurd rfl hOpen
      · rw [if_neg hClose]
        rfl

/-! ## Numbers -/

/-- The value of a decimal number without sign. -/
def readUnsigned (cs : List Char) : Except Trap (Option ℚ) := do
  let whole := before '.' cs
  let fraction := after '.' cs
  if whole.isEmpty && fraction.isEmpty then return none
  else if allDigits whole && allDigits fraction then
    let q ← orTrap .zeroDivisor
      (Number.ratio? (digitsValue (whole ++ fraction))
        (10 ^ byteLength fraction))
    return some q
  else return none

/-- Reads a decimal number. Its sign is told by its first byte. -/
def readDecimal (cs : List Char) : Except Trap (Option ℚ) := do
  let text := trim cs
  if firstByte? text = some '-'.toUInt8 then
    let q ← readUnsigned (← slice text 1 (byteLength text))
    return q.map fun q => -q
  else if firstByte? text = some '+'.toUInt8 then
    readUnsigned (← slice text 1 (byteLength text))
  else readUnsigned text

theorem readUnsigned_eq (cs : List Char) :
    readUnsigned cs = .ok (Number.readUnsigned cs) := by
  unfold readUnsigned Number.readUnsigned
  simp only
  split_ifs with hEmpty hDigits
  · rfl
  · have hFraction : Digits (after '.' cs) :=
      allDigits_iff.1 (Bool.and_eq_true_iff.1 hDigits).2
    have hNe : (10 : ℤ) ^ (after '.' cs).length ≠ 0 := by positivity
    rw [byteLength_of_digits hFraction, Number.ratio?, if_neg hNe,
      Rat.mkRat_eq_divInt]
    simp only [Nat.pow_eq, Nat.cast_pow, Nat.cast_ofNat]
    rfl
  · rfl

theorem readDecimal_eq (cs : List Char) :
    readDecimal cs = .ok (Number.readDecimal cs) := by
  unfold readDecimal Number.readDecimal
  generalize trim cs = text
  simp only [firstByte?_eq_ascii_iff (a := '-') (by decide),
    firstByte?_eq_ascii_iff (a := '+') (by decide)]
  split_ifs with hMinus hPlus
  · obtain ⟨rest, rfl⟩ := List.head?_eq_some_iff.1 hMinus
    rw [slice_one (by decide), ok_bind, readUnsigned_eq]
    rfl
  · obtain ⟨rest, rfl⟩ := List.head?_eq_some_iff.1 hPlus
    rw [slice_one (by decide), ok_bind]
    exact readUnsigned_eq rest
  · rw [readUnsigned_eq, Number.readSigned.eq_3]
    · intro rest hEq
      exact hMinus (by rw [hEq]; rfl)
    · intro rest hEq
      exact hPlus (by rw [hEq]; rfl)

/-! ## Sizes -/

/-- The number part and the unit of a size. The unit letter is its last byte. -/
def sizeParts (cs : List Char) : Except Trap (List Char × ℕ) :=
  match ValueReader.sizeUnits.find? fun u => cs.getLast? = some u.1 with
  | some u => do
      let stop ← subtract (byteLength cs) 1
      let ds ← slice cs 0 stop
      return (ds, 1024 ^ u.2)
  | none => return (cs, 1)

/-- A number of bytes. -/
def readSize (cs : List Char) : Except Trap (Option UInt64) := do
  let small := (trim cs).map ValueReader.smallLetter
  let (ds, unit) ← sizeParts ((ValueReader.dropLast? 'b' small).getD small)
  return do
    let n ← readWord ds
    let product := n.toNat * unit
    if product < UInt64.size then some (UInt64.ofNat product) else none

/-- The first unit whose letter can be dropped is the first one whose letter is
the last. -/
theorem findSome?_dropLast? (cs : List Char) (units : List (Char × ℕ)) :
    (units.findSome? fun (c, e) =>
        (ValueReader.dropLast? c cs).map (·, Nat.pow 1024 e)) =
      (units.find? fun u => cs.getLast? = some u.1).map fun u =>
        (cs.dropLast, Nat.pow 1024 u.2) := by
  induction units with
  | nil => rfl
  | cons u units ih =>
      by_cases hLast : cs.getLast? = some u.1
      · simp [ValueReader.dropLast?, hLast]
      · simpa [ValueReader.dropLast?, hLast] using ih

theorem sizeParts_eq (cs : List Char) :
    sizeParts cs = .ok (ValueReader.sizeParts cs) := by
  have hOne : ∀ u ∈ ValueReader.sizeUnits, u.1.utf8Size = 1 := by decide
  rw [sizeParts, ValueReader.sizeParts, findSome?_dropLast?]
  cases hUnit : ValueReader.sizeUnits.find? fun u => cs.getLast? = some u.1 with
  | none => rfl
  | some u =>
      have hSize := hOne u (List.mem_of_find?_eq_some hUnit)
      have hLast : cs.getLast? = some u.1 := by
        simpa using List.find?_some hUnit
      obtain ⟨front, rfl⟩ := List.getLast?_eq_some_iff.1 hLast
      have hRoom : 1 ≤ byteLength (front ++ [u.1]) := by
        rw [byteLength_append, byteLength_cons, hSize]
        omega
      simp only [Option.map_some, List.dropLast_concat]
      rw [subtract_of_le hRoom, ok_bind, slice_concat hSize]
      rfl

theorem readSize_eq (cs : List Char) :
    readSize cs = .ok (ValueReader.readSize cs) := by
  unfold readSize ValueReader.readSize
  simp only
  rw [sizeParts_eq, ok_bind]
  rfl

/-! ## Entries -/

variable {α : Type}

/-- A value reader with its form under guard. -/
structure Reader (α : Type) where
  plain : ValueReader α
  read : List Char → Except Trap (Option α)
  read_eq : ∀ cs, read cs = .ok (plain.read cs)

namespace Reader

def integer : Reader UInt64 :=
  ⟨.integer, fun cs => .ok (readWord cs), fun _ => rfl⟩

def size : Reader UInt64 := ⟨.size, readSize, readSize_eq⟩

def word : Reader String :=
  ⟨.word, fun cs => .ok (some (String.ofList cs)), fun _ => rfl⟩

end Reader

/-- The number in front of a colon or percent sign. -/
def readNumber (input : String) (fault : String → Malformation)
    (cs : List Char) :
    Guarded ℚ := do
  match ← readDecimal cs with
  | some q => return q
  | none => throw (.malformed input (fault (String.ofList (trim cs))))

theorem readNumber_eq (input : String) (fault : String → Malformation)
    (cs : List Char) :
    readNumber input fault cs =
      untrapped (Codec.readNumber input fault cs) := by
  rw [readNumber, readDecimal_eq, lift_ok_bind, Codec.readNumber]
  cases Number.readDecimal cs <;> rfl

/-- The share that an entry states in front of its colon. A percent sign only
counts there. -/
def readShare (input : String) (entry : List Char) (colon : ℕ) :
    Guarded Share :=
  match (offset? '%' entry).filter (· < colon) with
  | some percent => do
      let stray ← slice entry (percent + 1) colon
      if (trim stray).isEmpty then
        let number ← slice entry 0 percent
        let q ← readNumber input .invalidPercentage number
        let p ← divide q 100
        return .fixed p
      else throw (.malformed input (.strayText (String.ofList entry)))
  | none => do
      let number ← slice entry 0 colon
      let q ← readNumber input .invalidWeight number
      return .weighted q

/-- Behind its colon an entry does not matter to its share. -/
theorem readShare_eq (input : String) {entry : List Char} (h : ':' ∈ entry) :
    readShare input entry (byteLength (before ':' entry)) =
      untrapped (Codec.readShare input entry (before ':' entry)) := by
  have hText := before_append_after h
  have hFront := slice_before h
  unfold readShare Codec.readShare
  generalize before ':' entry = front at hText hFront
  have hSearch : (offset? '%' entry).filter (· < byteLength front) =
      offset? '%' front := by
    rw [← hText]
    exact filter_offset?_append '%' front _
  rw [hSearch]
  by_cases hPercent : '%' ∈ front
  · have hParts := before_append_after hPercent
    have hStray :
        slice entry (byteLength (before '%' front) + 1) (byteLength front) =
          .ok (after '%' front) := by
      have hOne : '%'.utf8Size = 1 := by decide
      refine slice_of_eq (before '%' front ++ ['%']) (':' :: after ':' entry)
        ?_ ?_ ?_
      · simp [hParts, hText]
      · simp [hOne]
      · simp [hParts]
    have hNumber : slice entry 0 (byteLength (before '%' front)) =
        .ok (before '%' front) := by
      refine slice_of_eq [] ('%' :: after '%' front ++ ':' :: after ':' entry)
        ?_ rfl rfl
      rw [List.nil_append, ← List.append_assoc, hParts, hText]
    rw [offset?_of_mem hPercent, if_pos (List.contains_iff_mem.2 hPercent)]
    simp only
    rw [hStray, lift_ok_bind]
    split_ifs
    · have hDivide : ∀ q : ℚ, divide q 100 = .ok (Number.ofPercent q) :=
        fun q => divide_of_ne (by norm_num)
      rw [hNumber, lift_ok_bind, readNumber_eq, untrapped_bind]
      simp only [hDivide, lift_ok_bind]
      rfl
    · rfl
  · rw [offset?_of_not_mem hPercent,
      if_neg fun h => hPercent (List.contains_iff_mem.1 h)]
    simp only
    rw [hFront, lift_ok_bind, readNumber_eq, untrapped_bind]
    rfl

section Entries

variable (r : Reader α) (c : Codec α) (hc : c.reader = r.plain)

/-- The value of a token, which is only read if the pattern of tokens matches
it. -/
def readToken (cs : List Char) : Guarded α := do
  let fault := Error.unrecognizedToken (String.ofList cs) c.reader.pattern
  if c.token.accepts cs then
    match ← r.read cs with
    | some v => return v
    | none => throw fault
  else throw fault

/-- The entry that a piece of text states. -/
def readEntry (input : String) (piece : List Char) : Guarded (Entry α) := do
  let entry := trim piece
  if entry.isEmpty then throw (.malformed input .emptyEntry)
  else
    match offset? ':' entry with
    | none => do
        let value ← readToken r c entry
        return ⟨value, .weighted 1⟩
    | some colon => do
        let rest ← slice entry (colon + 1) (byteLength entry)
        let token := trim rest
        if token.isEmpty then
          throw (.malformed input (.missingValue (String.ofList entry)))
        else
          let share ← readShare input entry colon
          let value ← readToken r c token
          return ⟨value, share⟩

/-- The entries that a text states. -/
def readEntries (text : String) : Guarded (List (Entry α)) := do
  match ← stripBrackets? text.toList with
  | none => throw (.malformed text .unbalancedBrackets)
  | some body =>
      if (trim body).isEmpty then throw .noEntries
      else (pieces ',' body).mapM (readEntry r c text)

/-- The distribution that a text states. -/
def readDistribution (text : String) : Guarded (Distribution α) := do
  let entries ← readEntries r c text
  let b ← entries.foldlM (fun b e => untrapped (b.add e)) Builder.empty
  create b

include hc

theorem readToken_eq (cs : List Char) :
    readToken r c cs = untrapped (c.readToken cs) := by
  unfold readToken Codec.readToken
  split_ifs
  · rw [r.read_eq, lift_ok_bind, hc]
    cases r.plain.read cs <;> rfl
  · rfl

theorem readEntry_eq (input : String) (piece : List Char) :
    readEntry r c input piece = untrapped (c.readEntry input piece) := by
  unfold readEntry Codec.readEntry
  generalize trim piece = entry
  simp only
  by_cases hEmpty : entry.isEmpty = true
  · rw [if_pos hEmpty, if_pos hEmpty]
    rfl
  rw [if_neg hEmpty, if_neg hEmpty]
  by_cases hColon : ':' ∈ entry
  · rw [offset?_of_mem hColon, if_pos (List.contains_iff_mem.2 hColon)]
    simp only
    rw [slice_after hColon (by decide), lift_ok_bind]
    split_ifs
    · rfl
    · rw [readShare_eq input hColon, untrapped_bind]
      congr 1
      funext share
      rw [readToken_eq r c hc, untrapped_bind]
      rfl
  · rw [offset?_of_not_mem hColon,
      if_neg fun h => hColon (List.contains_iff_mem.1 h)]
    simp only
    rw [readToken_eq r c hc, untrapped_bind]
    rfl

theorem readEntries_eq (text : String) :
    readEntries r c text = untrapped (c.readEntries text) := by
  rw [readEntries, stripBrackets?_eq, lift_ok_bind, Codec.readEntries]
  cases Codec.stripBrackets? text.toList with
  | none => rfl
  | some body =>
      simp only
      split_ifs
      · rfl
      · exact mapM_eq_untrapped (readEntry_eq r c hc text) _

/-- Reading is not cut off, as every builder it fills is sound. -/
theorem readDistribution_eq (text : String) :
    readDistribution r c text = untrapped (c.read text) := by
  rw [readDistribution, Codec.read, readEntries_eq r c hc, untrapped_bind]
  congr 1
  funext entries
  rw [foldlM_eq_untrapped fun _ _ => rfl, Distribution.ofEntries]
  cases hBuilder : entries.foldlM Builder.add Builder.empty with
  | error e => rfl
  | ok b => exact create_eq (Builder.sound_empty.foldlM_add hBuilder)

end Entries

/-! ## Kinds -/

/-- The mixture that a text states for the values of a reader. -/
def readAs (r : Reader α) (wrap : Distribution α → Mixture) (text : String) :
    Guarded Mixture := do
  let c ← untrapped (Codec.ofReader r.plain)
  let d ← readDistribution r c text
  return wrap d

/-- The mixture that a text states for a kind of values. -/
def read (k : Kind) (text : String) : Guarded Mixture :=
  match k with
  | .integer => readAs .integer .integer text
  | .size => readAs .size .size text
  | .word => readAs .word .word text

theorem reader_of_ofReader {reader : ValueReader α} {c : Codec α}
    (h : Codec.ofReader reader = .ok c) : c.reader = reader := by
  unfold Codec.ofReader at h
  split at h
  · cases h
    rfl
  · cases h

theorem readAs_eq (r : Reader α) (wrap : Distribution α → Mixture)
    (text : String) :
    readAs r wrap text = untrapped (do
      let c ← Codec.ofReader r.plain
      let d ← c.read text
      return wrap d) := by
  unfold readAs
  cases hCodec : Codec.ofReader r.plain with
  | error e => rfl
  | ok c =>
      show (readDistribution r c text >>= fun d => pure (wrap d)) =
        untrapped (c.read text >>= fun d => pure (wrap d))
      rw [readDistribution_eq r c (reader_of_ofReader hCodec), untrapped_bind]
      rfl

/-- **No text cuts reading off.** For every kind of values and every text, the
guarded run ends in the mixture or the error that reading yields. So all of
its cuts are made between two characters of the text, all of its divisors are
different from zero, and every table that it assembles has a value, as many
probabilities as values, a last probability of one, and no probability that is
not positive or greater than one. -/
theorem read_untrapped (k : Kind) (text : String) :
    (read k text).run = .ok (k.read text) := by
  cases k with
  | integer => exact readAs_eq .integer .integer text
  | size => exact readAs_eq .size .size text
  | word => exact readAs_eq .word .word text

end ValueMix.Guarded
