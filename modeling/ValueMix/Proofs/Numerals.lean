import Mathlib
import ValueMix.Proofs.Splitting
import ValueMix.Number.Decimal

/-!
# Numerals

What `readDecimal` accepts, as a grammar: an optional sign, then digits with
an optional point and further digits, or a point and at least one digit. The
grammar gives every numeral its value by place, digit string by digit string;
reading concatenates the strings and divides once.

## Main results

* `digitsValue_append` — the value of a digit string by place.
* `readUnsigned_eq_some_iff`, `readSigned_eq_some_iff` — reading accepts
  exactly the numerals, with their values.
* `readDecimal_eq_some_iff` — blanks around a numeral do not matter.
-/

namespace ValueMix.Text

/-! ## Digit strings -/

/-- A text of digits only. -/
def Digits (cs : List Char) : Prop := ∀ c ∈ cs, c.isDigit = true

theorem allDigits_iff {cs : List Char} : allDigits cs = true ↔ Digits cs := by
  rw [allDigits, List.all_eq_true]
  rfl

theorem Digits.append {xs ys : List Char} (hx : Digits xs) (hy : Digits ys) :
    Digits (xs ++ ys) :=
  List.forall_mem_append.2 ⟨hx, hy⟩

theorem digits_zeros (n : ℕ) : Digits (List.replicate n '0') := by
  intro c hc
  rw [List.eq_of_mem_replicate hc]
  rfl

theorem digitsValue_eq (cs : List Char) :
    digitsValue cs = Nat.ofDigitChars 10 cs 0 :=
  Nat.ofDigitChars_eq_foldl.symm

/-- The value of a digit string by place. -/
theorem digitsValue_append (xs ys : List Char) :
    digitsValue (xs ++ ys) =
      digitsValue xs * 10 ^ ys.length + digitsValue ys := by
  rw [digitsValue_eq, digitsValue_eq, digitsValue_eq, Nat.ofDigitChars_append,
    Nat.ofDigitChars_eq_ofDigitChars_zero, Nat.mul_comm]

@[simp] theorem digitsValue_digits (n : Nat) : digitsValue (digits n) = n := by
  rw [digitsValue_eq, digits]
  exact Nat.ofDigitChars_ten_toDigits

theorem digits_digits (n : Nat) : Digits (digits n) := by
  intro c hc
  exact Nat.isDigit_of_mem_toDigits (by decide) (by decide) hc

theorem digits_ne_nil (n : Nat) : digits n ≠ [] := Nat.toDigits_ne_nil

theorem toList_toString_nat (n : Nat) : (toString n).toList = digits n := by
  rw [Nat.toString_eq_ofList_toDigits, String.toList_ofList]
  rfl

/-- The code point of a digit. -/
theorem toNat_of_isDigit {c : Char} (h : c.isDigit = true) :
    48 ≤ c.toNat ∧ c.toNat ≤ 57 := by
  simp only [Char.isDigit, Bool.and_eq_true, decide_eq_true_eq] at h
  exact ⟨UInt32.le_iff_toNat_le.1 h.1, UInt32.le_iff_toNat_le.1 h.2⟩

/-- Digits are no blanks. -/
theorem isBlank_of_isDigit {c : Char} (h : c.isDigit = true) :
    isBlank c = false := by
  have := toNat_of_isDigit h
  simp only [isBlank, blankRanges, List.any_cons, List.any_nil, Bool.or_false,
    Bool.or_eq_false_iff, Bool.and_eq_false_iff, decide_eq_false_iff_not]
  omega

end ValueMix.Text

namespace ValueMix.Number

open ValueMix.Text

/-! ## The grammar -/

/-- The value of digits before and behind a point. -/
def pointValue (ds fs : List Char) : ℚ :=
  digitsValue ds + digitsValue fs / 10 ^ fs.length

/-- Numbers without sign, with their values. -/
inductive Numeral : List Char → ℚ → Prop where
  /-- Digits alone, as `12`. -/
  | whole {ds : List Char} : ds ≠ [] → Digits ds →
      Numeral ds (digitsValue ds)
  /-- Digits, a point and perhaps further digits, as `5.` and `0.25`. -/
  | point {ds fs : List Char} : ds ≠ [] → Digits ds → Digits fs →
      Numeral (ds ++ '.' :: fs) (pointValue ds fs)
  /-- A point and at least one digit, as `.5`. -/
  | fraction {fs : List Char} : fs ≠ [] → Digits fs →
      Numeral ('.' :: fs) (pointValue [] fs)

/-- Numbers with an optional sign, with their values. -/
inductive SignedNumeral : List Char → ℚ → Prop where
  | plain {cs : List Char} {q : ℚ} : Numeral cs q → SignedNumeral cs q
  | plus {cs : List Char} {q : ℚ} : Numeral cs q → SignedNumeral ('+' :: cs) q
  | minus {cs : List Char} {q : ℚ} : Numeral cs q →
      SignedNumeral ('-' :: cs) (-q)

/-! ## The characters of numerals -/

/-- The characters that numerals are made of. -/
def IsNumeralChar (c : Char) : Prop :=
  c.isDigit = true ∨ c = '.' ∨ c = '+' ∨ c = '-'

theorem isBlank_of_isNumeralChar {c : Char} (h : IsNumeralChar c) :
    isBlank c = false := by
  rcases h with hDigit | rfl | rfl | rfl
  · exact isBlank_of_isDigit hDigit
  all_goals decide

theorem Numeral.isNumeralChar {cs : List Char} {q : ℚ} (h : Numeral cs q) :
    ∀ c ∈ cs, IsNumeralChar c := by
  cases h with
  | whole _ hds => exact fun c hc => Or.inl (hds c hc)
  | point _ hds hfs =>
      intro c hc
      rcases List.mem_append.1 hc with hc | hc
      · exact Or.inl (hds c hc)
      · rcases List.mem_cons.1 hc with rfl | hc
        · exact Or.inr (Or.inl rfl)
        · exact Or.inl (hfs c hc)
  | fraction _ hfs =>
      intro c hc
      rcases List.mem_cons.1 hc with rfl | hc
      · exact Or.inr (Or.inl rfl)
      · exact Or.inl (hfs c hc)

theorem SignedNumeral.isNumeralChar {cs : List Char} {q : ℚ}
    (h : SignedNumeral cs q) : ∀ c ∈ cs, IsNumeralChar c := by
  intro c hc
  cases h with
  | plain hNum => exact hNum.isNumeralChar c hc
  | plus hNum =>
      rcases List.mem_cons.1 hc with rfl | hc
      · exact Or.inr (Or.inr (Or.inl rfl))
      · exact hNum.isNumeralChar c hc
  | minus hNum =>
      rcases List.mem_cons.1 hc with rfl | hc
      · exact Or.inr (Or.inr (Or.inr rfl))
      · exact hNum.isNumeralChar c hc

theorem SignedNumeral.tight {cs : List Char} {q : ℚ}
    (h : SignedNumeral cs q) : Tight cs :=
  Tight.of_forall fun c hc => isBlank_of_isNumeralChar (h.isNumeralChar c hc)

/-- A percent sign is no part of a numeral, nor of the blanks around it. -/
theorem SignedNumeral.percent_not_mem {n cs : List Char} {q : ℚ}
    (h : SignedNumeral n q) (hPad : Padded n cs) : '%' ∉ cs := by
  intro hMem
  have : isBlank '%' = true ∨ IsNumeralChar '%' :=
    hPad.forall_mem (P := fun c => isBlank c = true ∨ IsNumeralChar c)
      (fun _ hc => Or.inl hc)
      (fun c hc => Or.inr (h.isNumeralChar c hc)) '%' hMem
  revert this
  unfold IsNumeralChar
  decide

theorem Numeral.ne_nil {cs : List Char} {q : ℚ} (h : Numeral cs q) :
    cs ≠ [] := by
  cases h with
  | whole hne _ => exact hne
  | point hne _ _ => simp
  | fraction hne _ => simp

theorem SignedNumeral.ne_nil {cs : List Char} {q : ℚ}
    (h : SignedNumeral cs q) : cs ≠ [] := by
  cases h with
  | plain hNum => exact hNum.ne_nil
  | plus hNum => simp
  | minus hNum => simp

/-! ## Signs -/

/-- A text that does not begin with a sign. -/
def Unsigned (cs : List Char) : Prop :=
  cs.head? ≠ some '+' ∧ cs.head? ≠ some '-'

/-- Numerals begin with a digit or a point. -/
theorem Numeral.unsigned {cs : List Char} {q : ℚ} (h : Numeral cs q) :
    Unsigned cs := by
  have hDigits : ∀ {ds : List Char} (rest : List Char), ds ≠ [] → Digits ds →
      Unsigned (ds ++ rest) := by
    intro ds rest hne hds
    cases ds with
    | nil => exact absurd rfl hne
    | cons d ds =>
        have hDigit : d.isDigit = true := hds d (by simp)
        constructor
        · intro hPlus
          rw [Option.some.inj hPlus] at hDigit
          exact absurd hDigit (by decide)
        · intro hMinus
          rw [Option.some.inj hMinus] at hDigit
          exact absurd hDigit (by decide)
  cases h with
  | whole hne hds => exact List.append_nil cs ▸ hDigits [] hne hds
  | point hne hds _ => exact hDigits _ hne hds
  | fraction _ _ => exact ⟨by simp, by simp⟩

theorem SignedNumeral.numeral {cs : List Char} {q : ℚ}
    (h : SignedNumeral cs q) (hUnsigned : Unsigned cs) : Numeral cs q := by
  cases h with
  | plain hNum => exact hNum
  | plus _ => exact absurd rfl hUnsigned.1
  | minus _ => exact absurd rfl hUnsigned.2

theorem Numeral.nonneg {cs : List Char} {q : ℚ} (h : Numeral cs q) : 0 ≤ q := by
  cases h with
  | whole _ _ => exact Nat.cast_nonneg _
  | point _ _ _ => exact add_nonneg (Nat.cast_nonneg _) (by positivity)
  | fraction _ _ => exact add_nonneg (Nat.cast_nonneg _) (by positivity)

/-- Numbers with a minus sign are not positive. -/
theorem SignedNumeral.nonpos {cs : List Char} {q : ℚ}
    (h : SignedNumeral cs q) (hMinus : cs.head? = some '-') : q ≤ 0 := by
  cases h with
  | plain hNum => exact absurd hMinus hNum.unsigned.2
  | plus _ => exact absurd hMinus (by simp)
  | minus hNum => exact neg_nonpos.2 hNum.nonneg

/-! ## Reading -/

/-- Dividing the concatenated digits once gives the value by place. -/
theorem mkRat_digits (ds fs : List Char) :
    mkRat (digitsValue (ds ++ fs)) (Nat.pow 10 fs.length) =
      pointValue ds fs := by
  rw [digitsValue_append, Nat.pow_eq, Rat.mkRat_eq_div, pointValue]
  push_cast
  have hpos : (10 : ℚ) ^ fs.length ≠ 0 := by positivity
  field_simp

private theorem not_mem_of_digits {ds : List Char} (h : Digits ds) :
    '.' ∉ ds := by
  intro hMem
  exact absurd (h _ hMem) (by decide)

/-- Reading a number without sign accepts exactly the numerals. -/
theorem readUnsigned_eq_some_iff {cs : List Char} {q : ℚ} :
    readUnsigned cs = some q ↔ Numeral cs q := by
  constructor
  · intro h
    simp only [readUnsigned, Bool.and_eq_true, List.isEmpty_iff] at h
    split_ifs at h with hNone hDigits
    obtain ⟨hWhole, hFraction⟩ := hDigits
    rw [allDigits_iff] at hWhole hFraction
    rw [Option.some.injEq, mkRat_digits] at h
    rw [← h]
    by_cases hPoint : '.' ∈ cs
    · have hcs := before_append_after hPoint
      by_cases hEmpty : before '.' cs = []
      · have hne : after '.' cs ≠ [] := fun hAfter => hNone ⟨hEmpty, hAfter⟩
        have hNum := Numeral.fraction hne hFraction
        rw [hEmpty, List.nil_append] at hcs
        rw [hcs] at hNum
        rw [hEmpty]
        exact hNum
      · have hNum := Numeral.point hEmpty hWhole hFraction
        rw [hcs] at hNum
        exact hNum
    · rw [before_of_not_mem hPoint] at hWhole hNone ⊢
      rw [after_of_not_mem hPoint] at hNone ⊢
      have hne : cs ≠ [] := fun hNil => hNone ⟨hNil, rfl⟩
      have hValue : pointValue cs [] = digitsValue cs := by
        simp [pointValue, digitsValue]
      rw [hValue]
      exact Numeral.whole hne hWhole
  · intro h
    cases h with
    | whole hne hds =>
        have hPoint := not_mem_of_digits hds
        have hValue := mkRat_digits cs []
        simp only [List.append_nil] at hValue
        simp only [readUnsigned, before_of_not_mem hPoint,
          after_of_not_mem hPoint, List.append_nil, hValue]
        rw [if_neg (by simpa using hne), if_pos]
        · simp [pointValue, digitsValue]
        · rw [allDigits_iff.2 hds]
          rfl
    | @point ds fs hne hds hfs =>
        have hPoint := not_mem_of_digits hds
        simp only [readUnsigned, before_append hPoint, after_append hPoint,
          mkRat_digits]
        rw [if_neg (by simp [hne]), if_pos]
        rw [allDigits_iff.2 hds, allDigits_iff.2 hfs]
        rfl
    | @fraction fs hne hfs =>
        have hPoint : '.' ∉ ([] : List Char) := List.not_mem_nil
        have hBefore := before_append hPoint fs
        have hAfter := after_append hPoint fs
        rw [List.nil_append] at hBefore hAfter
        simp only [readUnsigned, hBefore, hAfter, mkRat_digits]
        rw [if_neg (by simp [hne]), if_pos]
        rw [allDigits_iff.2 hfs]
        rfl

/-- Reading a number with an optional sign accepts exactly the numerals. -/
theorem readSigned_eq_some_iff {cs : List Char} {q : ℚ} :
    readSigned cs = some q ↔ SignedNumeral cs q := by
  constructor
  · intro h
    unfold readSigned at h
    split at h
    · rename_i rest
      obtain ⟨p, hp, rfl⟩ := Option.map_eq_some_iff.1 h
      exact .minus (readUnsigned_eq_some_iff.1 hp)
    · rename_i rest
      exact .plus (readUnsigned_eq_some_iff.1 h)
    · exact .plain (readUnsigned_eq_some_iff.1 h)
  · intro h
    cases h with
    | plus hNum => exact readUnsigned_eq_some_iff.2 hNum
    | minus hNum =>
        rw [readSigned, readUnsigned_eq_some_iff.2 hNum]
        rfl
    | plain hNum =>
        have hRead := readUnsigned_eq_some_iff.2 hNum
        unfold readSigned
        split
        · exact absurd rfl hNum.unsigned.2
        · exact absurd rfl hNum.unsigned.1
        · exact hRead

/-- Blanks around a numeral do not matter. -/
theorem readDecimal_eq_some_iff {cs : List Char} {q : ℚ} :
    readDecimal cs = some q ↔ ∃ n, Padded n cs ∧ SignedNumeral n q := by
  rw [readDecimal, readSigned_eq_some_iff]
  constructor
  · intro h
    exact ⟨trim cs, padded_trim cs, h⟩
  · rintro ⟨n, hPad, h⟩
    rw [hPad.trim_eq h.tight]
    exact h

end ValueMix.Number
