import Mathlib
import ValueMix.Proofs.Numerals

/-!
# Groups of three digits

A comma stands behind every digit with a positive multiple of three digits to
its right. So the commas cut the digits of a number into groups, all of them
but the first of three digits, and taking the commas out gives the digits back.
The same text comes about from right to left, with a count of the digits that
have been written.

## Main results

* `groupedBackwards_eq` — writing from right to left with a count.
* `filter_groupThousands` — the text without its commas.
* `groups_groupThousands` — the groups between the commas.
* `grouped_exact` — what the grouped text of a number looks like.
-/

namespace ValueMix.Text

/-! ## Commas -/

/-- What stands between a digit and the `n` digits to its right. -/
def comma (n : ℕ) : List Char := if 0 < n ∧ n % 3 = 0 then [','] else []

theorem comma_of_multiple {n : ℕ} (hPos : 0 < n) (h : n % 3 = 0) :
    comma n = [','] :=
  if_pos ⟨hPos, h⟩

theorem comma_of_not_multiple {n : ℕ} (h : n % 3 ≠ 0) : comma n = [] :=
  if_neg fun hMultiple => h hMultiple.2

theorem filter_comma (n : ℕ) : (comma n).filter (· != ',') = [] := by
  unfold comma
  split <;> rfl

theorem groupThousands_cons (c : Char) (rest : List Char) :
    groupThousands (c :: rest) =
      c :: (comma rest.length ++ groupThousands rest) := by
  rw [groupThousands, comma]
  by_cases hComma : 0 < rest.length ∧ rest.length % 3 = 0
  · have hne : rest ≠ [] := List.length_pos_iff.1 hComma.1
    rw [if_pos hComma, if_pos (by simp [hComma.2, hne])]
    rfl
  · rw [if_neg hComma, if_neg]
    · rfl
    · intro h
      simp only [Bool.and_eq_true, decide_eq_true_eq, Bool.not_eq_true',
        List.isEmpty_eq_false_iff] at h
      exact hComma ⟨List.length_pos_iff.2 h.2, h.1⟩

/-! ## Writing from right to left -/

/-- One more digit behind a text that is written from right to left; the number
counts the digits in it. -/
def writeDigit (written : List Char × ℕ) (c : Char) : List Char × ℕ :=
  (written.1 ++ comma written.2 ++ [c], written.2 + 1)

/-- Digits written from right to left, with their number. -/
def groupedBackwards (ds : List Char) : List Char × ℕ :=
  ds.reverse.foldl writeDigit ([], 0)

/-- The count is the number of digits written, so the commas are set alike from
either side. -/
theorem groupedBackwards_eq (ds : List Char) :
    groupedBackwards ds = ((groupThousands ds).reverse, ds.length) := by
  induction ds with
  | nil => rfl
  | cons c rest ih =>
      have hComma : (comma rest.length).reverse = comma rest.length := by
        unfold comma
        split <;> rfl
      rw [groupedBackwards, List.reverse_cons, List.foldl_concat,
        ← groupedBackwards, ih, writeDigit, groupThousands_cons,
        List.reverse_cons, List.reverse_append, hComma, List.length_cons]

/-! ## Commas taken out -/

/-- The text without its commas. -/
theorem filter_groupThousands {ds : List Char} (h : ',' ∉ ds) :
    (groupThousands ds).filter (· != ',') = ds := by
  induction ds with
  | nil => rfl
  | cons c rest ih =>
      rw [List.mem_cons, not_or] at h
      have hKept : (c != ',') = true := by simpa using Ne.symm h.1
      rw [groupThousands_cons, List.filter_cons, if_pos hKept,
        List.filter_append, filter_comma, ih h.2, List.nil_append]

/-- Grouping begins with the first digit. -/
theorem head?_groupThousands (ds : List Char) :
    (groupThousands ds).head? = ds.head? := by
  cases ds with
  | nil => rfl
  | cons c rest => rw [groupThousands_cons, List.head?_cons, List.head?_cons]

/-- Grouping ends with the last digit. -/
theorem getLast?_groupThousands (ds : List Char) :
    (groupThousands ds).getLast? = ds.getLast? := by
  induction ds with
  | nil => rfl
  | cons c rest ih =>
      cases rest with
      | nil => rfl
      | cons d rest =>
          rw [groupThousands_cons, ← List.cons_append, List.getLast?_append, ih,
            List.getLast?_cons_cons, List.getLast?_cons, Option.some_or]

/-! ## Groups -/

/-- `n` digits in groups: three in each but the first, which has the others. -/
structure Groups (n : ℕ) (first : List Char) (later : List (List Char)) :
    Prop where
  length_first : first.length = (n - 1) % 3 + 1
  length_later : ∀ g ∈ later, g.length = 3
  digits : ∀ g ∈ first :: later, Digits g

namespace Groups

variable {n : ℕ} {c : Char} {first : List Char} {later : List (List Char)}

theorem singleton (hc : c.isDigit = true) : Groups 1 [c] [] where
  length_first := rfl
  length_later := by simp
  digits := by simpa [Digits] using hc

/-- A digit goes to the first group unless that is full. -/
theorem push (h : Groups n first later) (hc : c.isDigit = true)
    (hn : n % 3 ≠ 0) :
    Groups (n + 1) (c :: first) later where
  length_first := by
    rw [List.length_cons, h.length_first]
    omega
  length_later := h.length_later
  digits := by
    have hDigits := List.forall_mem_cons.1 h.digits
    exact List.forall_mem_cons.2 ⟨List.forall_mem_cons.2 ⟨hc, hDigits.1⟩,
      hDigits.2⟩

/-- A digit in front of a full group begins another one. -/
theorem start (h : Groups n first later) (hc : c.isDigit = true) (hPos : 0 < n)
    (hn : n % 3 = 0) : Groups (n + 1) [c] (first :: later) where
  length_first := by
    rw [List.length_singleton]
    omega
  length_later := by
    refine List.forall_mem_cons.2 ⟨?_, h.length_later⟩
    rw [h.length_first]
    omega
  digits := List.forall_mem_cons.2 ⟨by simpa [Digits] using hc, h.digits⟩

theorem length_first_bounds (h : Groups n first later) :
    1 ≤ first.length ∧ first.length ≤ 3 := by
  rw [h.length_first]
  omega

end Groups

/-- The groups between the commas. -/
theorem groups_groupThousands {ds : List Char} (hne : ds ≠ []) (h : Digits ds) :
    ∃ first later, pieces ',' (groupThousands ds) = first :: later ∧
      Groups ds.length first later := by
  induction ds with
  | nil => exact absurd rfl hne
  | cons c rest ih =>
      have hc : c.isDigit = true := h c List.mem_cons_self
      have hNoComma : c ≠ ',' := by
        rintro rfl
        exact absurd hc (by decide)
      by_cases hLast : rest = []
      · subst hLast
        exact ⟨[c], [], pieces_cons_of_ne hNoComma rfl, .singleton hc⟩
      · obtain ⟨first, later, hPieces, hGroups⟩ :=
          ih hLast fun d hd => h d (List.mem_cons_of_mem c hd)
        have hPos : 0 < rest.length := List.length_pos_iff.2 hLast
        rw [groupThousands_cons]
        by_cases hFull : rest.length % 3 = 0
        · refine ⟨[c], first :: later, ?_, hGroups.start hc hPos hFull⟩
          rw [comma_of_multiple hPos hFull]
          apply pieces_cons_of_ne hNoComma
          rw [List.singleton_append, pieces, if_pos rfl, hPieces]
        · refine ⟨c :: first, later, ?_, hGroups.push hc hFull⟩
          rw [comma_of_not_multiple hFull]
          exact pieces_cons_of_ne hNoComma hPieces

/-! ## Numbers -/

theorem comma_not_mem_digits (n : ℕ) : ',' ∉ digits n := by
  intro hMem
  exact absurd (digits_digits n _ hMem) (by decide)

theorem toList_grouped (n : ℕ) :
    (grouped n).toList = groupThousands (digits n) :=
  String.toList_ofList

theorem filter_grouped (n : ℕ) :
    (grouped n).toList.filter (· != ',') = (toString n).toList := by
  rw [toList_grouped, filter_groupThousands (comma_not_mem_digits n),
    toList_toString_nat]

/-- **The grouped text of a number.** It is the text that comes about from right
to left with a count of the digits. Without its commas it is the decimal text of
the number. It neither begins nor ends with a comma, and the commas cut it into
groups of digits, the first of one to three, every other one of three. Different
numbers have different texts. -/
theorem grouped_exact :
    (∀ n : ℕ,
      (grouped n).toList = (groupedBackwards (digits n)).1.reverse ∧
      (grouped n).toList.filter (· != ',') = (toString n).toList ∧
      (grouped n).toList.head? ≠ some ',' ∧
      (grouped n).toList.getLast? ≠ some ',' ∧
      ∃ first later, pieces ',' (grouped n).toList = first :: later ∧
        (1 ≤ first.length ∧ first.length ≤ 3) ∧
        (∀ g ∈ later, g.length = 3) ∧
        ∀ g ∈ first :: later, Digits g) ∧
    Function.Injective grouped := by
  constructor
  · intro n
    obtain ⟨first, later, hPieces, hGroups⟩ :=
      groups_groupThousands (digits_ne_nil n) (digits_digits n)
    refine ⟨?_, filter_grouped n, ?_, ?_, first, later, ?_,
      hGroups.length_first_bounds, hGroups.length_later, hGroups.digits⟩
    · rw [groupedBackwards_eq, List.reverse_reverse, toList_grouped]
    · rw [toList_grouped, head?_groupThousands]
      exact fun hHead => comma_not_mem_digits n (List.mem_of_head? hHead)
    · rw [toList_grouped, getLast?_groupThousands]
      exact fun hLast => comma_not_mem_digits n (List.mem_of_getLast? hLast)
    · rw [toList_grouped, hPieces]
  · intro m n h
    have hDigits : digits m = digits n := by
      rw [← toList_toString_nat, ← toList_toString_nat, ← filter_grouped,
        ← filter_grouped, h]
    rw [← digitsValue_digits m, hDigits, digitsValue_digits]

example : grouped 1234567 = "1,234,567" := by decide +kernel

end ValueMix.Text
