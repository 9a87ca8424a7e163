import Mathlib
import ValueMix.Binary64.Shortest
import ValueMix.Proofs.JsonSpelling
import ValueMix.Proofs.RatioTexts

/-!
# Numbers as JSON literals

JSON forbids leading zeros in front of another digit, and a point without
digits on both of its sides. The texts of natural numbers and the shortest
texts of binary64 numbers keep to that: the shortest digits of a positive
number are not zero, so the first of them is not, and where a side of the point
has no digits a zero stands there.

## Main results

* `Literal.matches_text` — number literals by their parts.
* `digits_shortest` — the shortest digits of a positive number.
* `matches_shortestText` — every shortest text is a number literal.
-/

namespace ValueMix

open ValueMix.Text

/-! ## The parts of literals -/

namespace JsonValue

/-- Digits that may stand in front of a point: at least one, and no zero in
front of another one. -/
structure WholeDigits (ds : List Char) : Prop where
  digits : Digits ds
  ne_nil : ds ≠ []
  leading : ds.head? = some '0' → ds = ['0']

theorem wholeDigits_digits (n : ℕ) : WholeDigits (digits n) :=
  ⟨digits_digits n, digits_ne_nil n, digits_of_head?_zero⟩

/-- A single digit is not in front of another one. -/
theorem wholeDigits_singleton {c : Char} (h : c.isDigit = true) :
    WholeDigits [c] where
  digits := by simpa [Digits] using h
  ne_nil := List.cons_ne_nil c []
  leading := by simp

theorem WholeDigits.matches {ds : List Char} (h : WholeDigits ds) :
    Pattern.Matches (.alt (.char (.single '0'))
      (.seq (.char ⟨[(49, 57)], false⟩) (.star (.char Spec.digitSet)))) ds := by
  obtain ⟨c, rest, rfl⟩ := List.exists_cons_of_ne_nil h.ne_nil
  obtain ⟨hc, hRest⟩ := List.forall_mem_cons.1 h.digits
  by_cases hZero : c = '0'
  · obtain rfl : rest = [] := by simpa [hZero] using h.leading (by simp [hZero])
    rw [hZero]
    exact .left (.char (by decide))
  · have hRange := toNat_of_isDigit hc
    have hNe : c.toNat ≠ 48 := fun h48 => hZero (Char.toNat_inj.1 h48)
    have hFirst : CharSet.contains ⟨[(49, 57)], false⟩ c = true := by
      simp only [CharSet.contains, List.any_cons, List.any_nil, Bool.or_false,
        Bool.bne_false, Bool.and_eq_true, decide_eq_true_eq]
      omega
    have hOne : Pattern.Matches (.char ⟨[(49, 57)], false⟩) [c] := .char hFirst
    refine .right (.seq hOne ?_)
    exact Pattern.matches_star_char_iff.2 fun d hd =>
      Spec.contains_digitSet_iff.2 (hRest d hd)

/-- The parts of a number literal without its sign. A fraction and an exponent
have digits if they are there. -/
structure Literal where
  whole : List Char
  fraction : Option (List Char)
  exponent : Option (Bool × List Char)
  whole_digits : WholeDigits whole
  fraction_digits : ∀ fs ∈ fraction, fs ≠ [] ∧ Digits fs
  exponent_digits : ∀ e ∈ exponent, e.2 ≠ [] ∧ Digits e.2

namespace Literal

def fractionText (f : Literal) : List Char :=
  (f.fraction.map ('.' :: ·)).getD []

def exponentText (f : Literal) : List Char :=
  (f.exponent.map fun e => 'e' :: (if e.1 then '-' else '+') :: e.2).getD []

def text (f : Literal) : List Char :=
  f.whole ++ (f.fractionText ++ f.exponentText)

theorem matches_fractionText (f : Literal) :
    Pattern.Matches
      (.optional (.sequence [.char (.single '.'), Spec.someDigits]))
      f.fractionText := by
  unfold fractionText
  cases hParts : f.fraction with
  | none => exact .right .nothing
  | some fs =>
      have hPoint : Pattern.Matches (.char (.single '.')) ['.'] :=
        .char (by decide)
      refine .left (hPoint.cons ?_)
      exact Spec.matches_someDigits_iff.2 (f.fraction_digits fs hParts)

theorem matches_exponentText (f : Literal) : Pattern.Matches
    (.optional (.sequence [.char ⟨[(101, 101), (69, 69)], false⟩,
      .optional (.char ⟨[(43, 43), (45, 45)], false⟩), Spec.someDigits]))
    f.exponentText := by
  unfold exponentText
  cases hParts : f.exponent with
  | none => exact .right .nothing
  | some e =>
      have hSome := Spec.matches_someDigits_iff.2 (f.exponent_digits e hParts)
      have hLetter :
          Pattern.Matches (.char ⟨[(101, 101), (69, 69)], false⟩) ['e'] :=
        .char (by decide)
      have hSign : Pattern.Matches
          (.optional (.char ⟨[(43, 43), (45, 45)], false⟩))
          [if e.1 then '-' else '+'] := by
        cases e.1
        · exact .left (.char (by decide))
        · exact .left (.char (by decide))
      exact .left (hLetter.cons (hSign.cons hSome))

/-- With a minus sign or without one, the parts make up a number literal. -/
theorem matches_text (f : Literal) (negative : Bool) :
    numberPattern.Matches ((if negative then ['-'] else []) ++ f.text) := by
  have hSign : Pattern.Matches (.optional (.char (.single '-')))
      (if negative then ['-'] else []) := by
    cases negative
    · exact .right .nothing
    · exact .left (.char (by decide))
  unfold numberPattern text
  refine Pattern.Matches.cons hSign
    (Pattern.Matches.cons f.whole_digits.matches ?_)
  exact Pattern.Matches.cons f.matches_fractionText f.matches_exponentText

end Literal

/-- The digits of a natural number are a number literal. -/
theorem matches_digits (n : ℕ) : numberPattern.Matches (digits n) := by
  have hText := Literal.matches_text
    ⟨digits n, none, none, wholeDigits_digits n, nofun, nofun⟩ false
  simpa [Literal.text, Literal.fractionText, Literal.exponentText] using hText

end JsonValue

/-! ## Shortest digits -/

namespace Binary64

theorem le_divNearestEven (n d : ℕ) : n / d ≤ divNearestEven n d := by
  unfold divNearestEven
  simp only
  split_ifs <;> omega

/-- Zero does not round to a positive magnitude. -/
theorem ne_zero_of_roundsTo {m n d : ℕ} (hm : m ≠ 0)
    (h : roundsTo m n d = true) :
    n ≠ 0 := by
  rintro rfl
  have hRound : roundMagnitude 0 d = m := of_decide_eq_true h
  exact hm (hRound.symm.trans (if_pos rfl))

/-- What is found on a grid for a positive magnitude is not zero. -/
theorem digits_onGrid? {m : ℕ} (hm : m ≠ 0) {q : ℚ} {e : ℤ} {f : PowerForm}
    (h : onGrid? m q e = some f) : f.digits ≠ 0 := by
  unfold onGrid? at h
  simp only at h
  split_ifs at h with hBoth hLow hHigh
  · cases h
    have hFits := (Bool.and_eq_true_iff.1 hBoth).1
    have hLowNe := left_ne_zero_of_mul (ne_zero_of_roundsTo hm hFits)
    have hLe :=
      le_divNearestEven (q.num.natAbs * (tenPower e).2) (q.den * (tenPower e).1)
    exact ((Nat.pos_of_ne_zero hLowNe).trans_le hLe).ne'
  · cases h
    exact left_ne_zero_of_mul (ne_zero_of_roundsTo hm hLow)
  · cases h
    exact Nat.succ_ne_zero _

theorem digits_strip {k : ℕ} {f : PowerForm} (h : f.digits ≠ 0) :
    (PowerForm.stripped.strip k f).digits ≠ 0 := by
  induction k generalizing f with
  | zero => exact h
  | succ k ih =>
      rw [PowerForm.stripped.strip]
      split
      · apply ih
        show f.digits / 10 ≠ 0
        omega
      · exact h

/-- The shortest digits of a positive magnitude are not zero. Should no digits
round to it, a zero with an exponent would stand for it. -/
theorem digits_shortest {m : ℕ} (hm : m ≠ 0) :
    (shortest m).digits ≠ 0 ∨ shortest m = ⟨0, 17⟩ := by
  unfold shortest
  simp only
  cases hFound : (List.range 17).findSome? fun (k : ℕ) =>
      onGrid? m (valueOf m) (floorLog10 (valueOf m) - (k : ℤ)) with
  | some f =>
      obtain ⟨k, -, hGrid⟩ := List.exists_of_findSome?_eq_some hFound
      exact .inl (digits_strip (digits_onGrid? hm hGrid))
  | none =>
      rw [Option.getD_none]
      by_cases hZero : divNearestEven (valueOf m).num.natAbs (valueOf m).den = 0
      · rw [hZero]
        exact .inr rfl
      · exact .inl (digits_strip hZero)

/-! ## Texts -/

open JsonValue

theorem head?_digits_ne {n : ℕ} (h : n ≠ 0) : (digits n).head? ≠ some '0' := by
  intro hZero
  have hValue := digitsValue_digits n
  rw [digits_of_head?_zero hZero] at hValue
  exact h (hValue.symm.trans rfl)

/-- Digits with a point somewhere among them are a number literal, unless they
begin with a zero. -/
theorem exists_literal_pointText {ds : List Char} (hDigits : Digits ds)
    (hNe : ds ≠ []) (hHead : ds.head? ≠ some '0') (whole : ℤ) :
    ∃ f : Literal, (pointText ds whole).toList = f.text := by
  unfold pointText
  by_cases hSmall : whole ≤ 0
  · have hFraction : Digits (List.replicate (-whole).toNat '0' ++ ds) :=
      (digits_zeros _).append hDigits
    rw [if_pos hSmall]
    refine ⟨⟨['0'], some (List.replicate (-whole).toNat '0' ++ ds), none,
      wholeDigits_singleton rfl, ?_, nofun⟩, ?_⟩
    · rintro fs ⟨⟩
      exact ⟨List.append_ne_nil_of_right_ne_nil _ hNe, hFraction⟩
    · simp [Literal.text, Literal.fractionText, Literal.exponentText]
  rw [if_neg hSmall]
  simp only
  -- the digits in front of the point begin with the first one
  have hWhole : ∀ front : List Char, Digits front → front.head? = ds.head? →
      WholeDigits front := by
    intro front hFront hSame
    refine ⟨hFront, ?_, fun hZero => absurd (hSame.symm.trans hZero) hHead⟩
    rintro rfl
    exact hNe (List.head?_eq_none_iff.1 hSame.symm)
  split_ifs with hLength
  · have hFront : Digits (ds ++ List.replicate (whole.toNat - ds.length) '0') :=
      hDigits.append (digits_zeros _)
    refine ⟨⟨ds ++ List.replicate (whole.toNat - ds.length) '0', some ['0'],
      none, hWhole _ hFront (List.head?_append_of_ne_nil _ hNe), ?_, nofun⟩, ?_⟩
    · rintro fs ⟨⟩
      exact ⟨List.cons_ne_nil _ _, (wholeDigits_singleton rfl).digits⟩
    · simp [Literal.text, Literal.fractionText, Literal.exponentText]
  · have hFront : Digits (ds.take whole.toNat) :=
      fun c hc => hDigits c (List.mem_of_mem_take hc)
    have hSame : (ds.take whole.toNat).head? = ds.head? := by
      rw [List.head?_take, if_neg (by omega)]
    refine ⟨⟨ds.take whole.toNat, some (ds.drop whole.toNat), none,
      hWhole _ hFront hSame, ?_, nofun⟩, ?_⟩
    · rintro fs ⟨⟩
      refine ⟨fun hNil => ?_, fun c hc => hDigits c (List.mem_of_mem_drop hc)⟩
      have hDrop := List.drop_eq_nil_iff.1 hNil
      omega
    · simp [Literal.text, Literal.fractionText, Literal.exponentText]

/-- Digits in scientific notation are a number literal. -/
theorem exists_literal_scientificText {ds : List Char} (hDigits : Digits ds)
    (hNe : ds ≠ []) (e : ℤ) :
    ∃ f : Literal, (scientificText ds e).toList = f.text := by
  obtain ⟨c, rest, rfl⟩ := List.exists_cons_of_ne_nil hNe
  obtain ⟨hc, hRest⟩ := List.forall_mem_cons.1 hDigits
  refine ⟨⟨[c], if rest = [] then none else some rest,
    some (e < 0, digits e.natAbs), wholeDigits_singleton hc, ?_, ?_⟩, ?_⟩
  · intro fs hfs
    split_ifs at hfs with hNil
    · cases hfs
    · cases hfs
      exact ⟨hNil, hRest⟩
  · rintro e' ⟨⟩
    exact ⟨digits_ne_nil _, digits_digits _⟩
  · unfold scientificText
    cases rest <;> by_cases hSign : e < 0 <;>
      simp [Literal.text, Literal.fractionText, Literal.exponentText, hSign,
        digits]

/-- **Shortest texts are number literals.** -/
theorem matches_shortestText (x : Binary64) :
    numberPattern.Matches x.shortestText.toList := by
  have hSign : x.signText.toList = if x.negative then ['-'] else [] := by
    unfold signText
    split <;> rfl
  obtain ⟨f, hText⟩ : ∃ f : Literal, x.shortestText.toList =
      x.signText.toList ++ f.text := by
    unfold shortestText
    by_cases hZero : x.isZero = true
    · rw [if_pos hZero, String.toList_append]
      refine ⟨⟨['0'], some ['0'], none, wholeDigits_singleton rfl, ?_, nofun⟩,
        rfl⟩
      rintro fs ⟨⟩
      exact ⟨List.cons_ne_nil _ _, (wholeDigits_singleton rfl).digits⟩
    · have hPositive : x.magnitude ≠ 0 := fun h => hZero (decide_eq_true h)
      have hDigits := digits_digits (shortest x.magnitude).digits
      have hNe := digits_ne_nil (shortest x.magnitude).digits
      rw [if_neg hZero]
      simp only [String.toList_append]
      split_ifs with hPlain
      · have hHead :
            (digits (shortest x.magnitude).digits).head? ≠ some '0' := by
          rcases digits_shortest hPositive with hSome | hNone
          · exact head?_digits_ne hSome
          · -- a lone zero is not written without its exponent
            rw [hNone] at hPlain
            exact absurd hPlain (by decide)
        obtain ⟨f, hf⟩ := exists_literal_pointText hDigits hNe hHead
          ((shortest x.magnitude).exponent +
            (digits (shortest x.magnitude).digits).length - 1 + 1)
        exact ⟨f, by rw [← hf]; rfl⟩
      · obtain ⟨f, hf⟩ := exists_literal_scientificText hDigits hNe
          ((shortest x.magnitude).exponent +
            (digits (shortest x.magnitude).digits).length - 1)
        exact ⟨f, by rw [← hf]; rfl⟩
  rw [hText, hSign]
  exact f.matches_text x.negative

end Binary64

end ValueMix
