import Mathlib
import ValueMix.Proofs.Apportionment
import ValueMix.Proofs.Grammar
import ValueMix.Proofs.Layout
import ValueMix.Proofs.SpecPattern

/-!
# The text of a distribution

A distribution is written as a list of pieces in brackets. Each piece is a
number of tenths as a percentage and a value behind a colon, so the text is in
the grammar of distributions: it states the shares shown and the values, if
the text of every value is a token of that value.

## Main results

* `numeral_tenths` — a number of tenths is written as a numeral of its value.
* `statedSpec_text` — what the text of a distribution states.
* `matches_text` — the pattern of whole texts matches it.
-/

namespace ValueMix

open ValueMix.Number ValueMix.Text

/-! ## Tenths -/

namespace Number

/-- The characters of a number of tenths. -/
theorem toList_tenthsText {t : ℤ} (h : 0 ≤ t) :
    (tenthsText t).toList =
      digits (t.natAbs / 10) ++ '.' :: digits (t.natAbs % 10) := by
  rw [tenthsText, signed, if_neg (by simpa using h), String.toList_append,
    String.toList_append, toList_toString_nat, toList_toString_nat,
    List.append_assoc]
  rfl

private theorem length_digits_of_lt {n : ℕ} (h : n < 10) :
    (digits n).length = 1 := by
  rw [digits, Nat.toDigits_of_lt_base h]
  rfl

/-- A number of tenths is written as a numeral of its value. -/
theorem numeral_tenths {t : ℤ} (h : 0 ≤ t) :
    Numeral (tenthsText t).toList (t / 10) := by
  have hValue : pointValue (digits (t.natAbs / 10)) (digits (t.natAbs % 10)) =
      t / 10 := by
    have hSplit := Nat.div_add_mod t.natAbs 10
    have hCast : ((t.natAbs : ℕ) : ℚ) = t := by
      rw [← Int.cast_natCast, Int.natAbs_of_nonneg h]
    rw [pointValue, length_digits_of_lt (Nat.mod_lt _ (by norm_num)),
      digitsValue_digits, digitsValue_digits, ← hCast]
    have hSplitQ : (10 : ℚ) * ((t.natAbs / 10 : ℕ) : ℚ) +
        ((t.natAbs % 10 : ℕ) : ℚ) = (t.natAbs : ℚ) := by exact_mod_cast hSplit
    rw [← hSplitQ]
    ring
  rw [toList_tenthsText h, ← hValue]
  exact .point (digits_ne_nil _) (digits_digits _) (digits_digits _)

end Number

/-! ## Lists joined with a comma and a blank -/

namespace Text

/-- A list of texts, all but the first with a blank in front. -/
def spaced : List (List Char) → List (List Char)
  | [] => []
  | p :: ps => p :: ps.map (' ' :: ·)

theorem spaced_ne_nil {ps : List (List Char)} (h : ps ≠ []) :
    spaced ps ≠ [] := by
  cases ps with
  | nil => exact absurd rfl h
  | cons p ps => exact List.cons_ne_nil _ _

theorem intercalate_comma_blank (ps : List (List Char)) :
    [',', ' '].intercalate ps = [','].intercalate (spaced ps) := by
  cases ps with
  | nil => rfl
  | cons p ps =>
      rw [spaced, intercalate_cons, intercalate_cons, List.map_map]
      rfl

end Text

/-- Blanks behind the commas do not change what the pieces state. -/
theorem Codec.statedEntry_spaced {α : Type} {c : Codec α}
    {ps : List (List Char)} {es : List (Entry α)}
    (h : List.Forall₂ c.StatedEntry ps es) :
    List.Forall₂ c.StatedEntry (spaced ps) es := by
  cases h with
  | nil => exact .nil
  | cons hp hps =>
      refine .cons hp ?_
      rw [List.forall₂_map_left_iff]
      exact hps.imp fun p e he => he.padded blank_singleton_space

namespace Distribution

variable {α : Type} [ToString α]

/-! ## Pieces -/

/-- The characters of the piece that shows some tenths and a value. -/
def piece (t : ℤ) (v : α) : List Char :=
  (tenthsText t).toList ++ '%' :: ':' :: ' ' :: (toString v).toList

/-- The pieces of the text of a distribution. -/
def shownPieces (d : Distribution α) : List (List Char) :=
  List.zipWith piece (apportion d.marginals) d.values

theorem toList_text (d : Distribution α) :
    d.text.toList =
      '[' :: [','].intercalate (spaced d.shownPieces) ++ [']'] := by
  have hPiece : ∀ (s : String) (v : α), (entryText s v).toList =
      s.toList ++ '%' :: ':' :: ' ' :: (toString v).toList := by
    intro s v
    simp [entryText]
  have hPieces : (List.zipWith entryText (apportionedTexts d.marginals)
      d.values).map String.toList = d.shownPieces := by
    rw [List.map_zipWith, apportionedTexts, List.zipWith_map_left]
    simp only [hPiece]
    rfl
  rw [text, ← intercalate_comma_blank, ← hPieces]
  simp [String.toList_intercalate]

/-- The entries that some tenths and values state. -/
def shownEntries (ts : List ℤ) (vs : List α) : List (Entry α) :=
  List.zipWith (fun (t : ℤ) v => ⟨v, .fixed ((t : ℚ) / 1000)⟩) ts vs

/-! ## What the text states -/

variable {c : Codec α}

theorem statedEntry_piece {t : ℤ} {v : α} (ht : 0 ≤ t)
    (hv : c.StatedValue (toString v).toList v) :
    c.StatedEntry (piece t v) ⟨v, .fixed (t / 1000)⟩ := by
  have hPercent : Codec.StatedShare ((tenthsText t).toList ++ ['%'])
      (.fixed ((t : ℚ) / 10 / 100)) :=
    .percentage (.plain (numeral_tenths ht)) ⟨[], [], blank_nil, blank_nil,
      by simp⟩
      blank_nil
  have hShare : (t : ℚ) / 10 / 100 = t / 1000 := by ring
  rw [hShare] at hPercent
  have hPiece := Codec.StatedEntry.shared hPercent hv
    ⟨[' '], [], blank_singleton_space, blank_nil, rfl⟩
  simpa [piece] using hPiece

theorem statedEntry_shown {ts : List ℤ} {vs : List α} (hts : ∀ t ∈ ts, 0 ≤ t)
    (hvs : ∀ v ∈ vs, c.StatedValue (toString v).toList v) :
    List.Forall₂ c.StatedEntry (List.zipWith piece ts vs)
      (shownEntries ts vs) := by
  induction ts generalizing vs with
  | nil => exact .nil
  | cons t ts ih =>
      cases vs with
      | nil => exact .nil
      | cons v vs =>
          rw [List.forall_mem_cons] at hts hvs
          exact .cons (statedEntry_piece hts.1 hvs.1) (ih hts.2 hvs.2)

theorem shownPieces_ne_nil (d : Distribution α) : d.shownPieces ≠ [] := by
  intro hNil
  have hLength := congrArg List.length hNil
  simp only [shownPieces, List.length_zipWith, length_apportion,
    length_marginals, length_values, min_self, List.length_nil] at hLength
  exact absurd hLength d.cells_pos.ne'

/-- The text of a distribution states the shares shown. -/
theorem statedSpec_text {d : Distribution α}
    (hts : ∀ t ∈ apportion d.marginals, 0 ≤ t)
    (hvs : ∀ v ∈ d.values, c.StatedValue (toString v).toList v) :
    c.StatedSpec d.text.toList
      (shownEntries (apportion d.marginals) d.values) := by
  have hBracket : ∀ b : Char, isBlank b = false → Tight [b] :=
    fun b hb => Tight.of_forall fun ch hch => by
      rw [List.mem_singleton.1 hch, hb]
  have hTight : Tight (['['] ++ [','].intercalate (spaced d.shownPieces) ++
      [']']) :=
    (hBracket '[' (by decide)).append (hBracket ']' (by decide))
      (by simp) (by simp)
  refine ⟨[','].intercalate (spaced d.shownPieces), Or.inr ?_, _,
    spaced_ne_nil d.shownPieces_ne_nil, rfl,
    Codec.statedEntry_spaced (statedEntry_shown hts hvs)⟩
  rw [toList_text]
  exact trim_of_tight hTight

/-! ## The pattern of whole texts -/

open Pattern

theorem entryForm_piece {token : Pattern} {l : List Char} {t : ℤ} {v : α}
    (hl : Blank l) (ht : 0 ≤ t) (hv : token.Matches (toString v).toList) :
    Spec.EntryForm token (l ++ piece t v) := by
  have hForm : Spec.EntryForm token
      ((l ++ (tenthsText t).toList ++ []) ++ '%' :: [] ++
        ':' :: ([' '] ++ (toString v).toList ++ [])) :=
    .percentage (numeral_tenths ht) ⟨l, [], hl, blank_nil, rfl⟩ blank_nil hv
      ⟨[' '], [], blank_singleton_space, blank_nil, rfl⟩
  simpa [piece] using hForm

/-- The pattern of whole texts matches the text of a distribution. -/
theorem matches_text {token : Pattern} {d : Distribution α}
    (hts : ∀ t ∈ apportion d.marginals, 0 ≤ t)
    (hvs : ∀ v ∈ d.values, token.Matches (toString v).toList) :
    (Spec.specPattern token).Matches d.text.toList := by
  have hPieces : ∀ p ∈ d.shownPieces, ∀ l, Blank l →
      Spec.EntryForm token (l ++ p) := by
    intro p hp l hl
    rw [shownPieces, ← List.map_uncurry_zip_eq_zipWith] at hp
    obtain ⟨⟨t, v⟩, hPair, rfl⟩ := List.mem_map.1 hp
    exact entryForm_piece hl (hts t (List.of_mem_zip hPair).1)
      (hvs v (List.of_mem_zip hPair).2)
  rw [toList_text]
  refine Spec.matches_specPattern_iff.2 ⟨[], ['['], _, [']'], [], blank_nil,
    Or.inl rfl, spaced_ne_nil d.shownPieces_ne_nil, ?_, Or.inl rfl, blank_nil,
    by simp⟩
  cases hShown : d.shownPieces with
  | nil => exact absurd hShown d.shownPieces_ne_nil
  | cons p ps =>
      rw [hShown, List.forall_mem_cons] at hPieces
      rw [spaced, List.forall_mem_cons]
      refine ⟨hPieces.1 [] blank_nil, fun q hq => ?_⟩
      obtain ⟨p', hp', rfl⟩ := List.mem_map.1 hq
      exact hPieces.2 p' hp' [' '] blank_singleton_space

end Distribution

end ValueMix
