import Mathlib
import ValueMix.Proofs.Refusals
import ValueMix.Proofs.SpecPattern

/-!
# Checking a text before it is read

The pattern of whole texts lets a configuration check a text without reading
it. The pattern and the reader are written independently. They agree piece by
piece, but for two differences: the pattern knows no signs, and it does not ask
for the second bracket where there is one.

## Main results

* `accepts_iff_forall_entryForm` — the pattern of whole texts describes the
  texts whose pieces it describes, behind brackets on either side.
* `entryForm_iff_inForm` — a piece that the pattern describes is one that the
  reader cuts, with a number that has no sign.
* `accepts_iff_pieces` — the pattern against the reader, for every kind.
* `accepts_iff_of_read`, `read_error_of_accepts` — what a check says about the
  outcome of reading.
-/

namespace ValueMix

open ValueMix.Number ValueMix.Text

namespace Codec

variable {α : Type} {c : Codec α}

/-! ## The number of a piece -/

/-- The number in front of the colon of a piece, without the blanks around it,
if the piece has a colon. -/
def numberText? (piece : List Char) : Option (List Char) :=
  let entry := trim piece
  if entry.contains ':' then some (trim (before '%' (before ':' entry)))
  else none

theorem numberText?_padded {piece padded : List Char}
    (h : Padded piece padded) : numberText? padded = numberText? piece := by
  obtain ⟨l, r, hl, hr, rfl⟩ := h
  simp only [numberText?, trim_padded hl hr]

theorem numberText?_bare (hc : c.Plain) {t piece : List Char}
    (ht : c.token.Matches t) (hPad : Padded t piece) :
    numberText? piece = none := by
  have hColon : ':' ∉ t := hc.not_mem ht (by decide)
  rw [numberText?, hPad.trim_eq (hc.tight ht),
    if_neg (by rwa [List.contains_iff_mem])]

theorem numberText?_of_colon {front : List Char} (hFront : ':' ∉ front)
    (back : List Char) :
    numberText? (front ++ ':' :: back) = some (trim (before '%' front)) := by
  have hTrim := trim_append_cons (b := ':') (by decide) front back
  have hStart : ':' ∉ trimStart front := (padded_trimStart front).not_mem hFront
  rw [numberText?, hTrim, if_pos (by rw [List.contains_iff_mem]; simp),
    before_append hStart, trim_before_trimStart (by decide)]

theorem numberText?_weight {n front : List Char} {q : ℚ}
    (hNum : SignedNumeral n q) (hPad : Padded n front) (back : List Char) :
    numberText? (front ++ ':' :: back) = some n := by
  rw [numberText?_of_colon (StatedShare.weight hNum hPad).colon_not_mem,
    before_of_not_mem (hNum.percent_not_mem hPad), hPad.trim_eq hNum.tight]

theorem numberText?_percentage {n front gap : List Char} {q : ℚ}
    (hNum : SignedNumeral n q) (hPad : Padded n front) (hGap : Blank gap)
    (back : List Char) :
    numberText? (front ++ '%' :: gap ++ ':' :: back) = some n := by
  rw [numberText?_of_colon
      (StatedShare.percentage hNum hPad hGap).colon_not_mem,
    before_append (hNum.percent_not_mem hPad), hPad.trim_eq hNum.tight]

/-- A share in front of a colon is that of the number there. -/
theorem StatedShare.exists_numeral {front : List Char} {share : Share}
    (h : StatedShare front share) (back : List Char) :
    ∃ n q, SignedNumeral n q ∧ numberText? (front ++ ':' :: back) = some n ∧
      (share = .weighted q ∨ share = .fixed (q / 100)) := by
  cases h with
  | weight hNum hPad =>
      exact ⟨_, _, hNum, numberText?_weight hNum hPad back, Or.inl rfl⟩
  | percentage hNum hPad hGap =>
      exact ⟨_, _, hNum, numberText?_percentage hNum hPad hGap back,
        Or.inr rfl⟩

/-- The number of a piece whose entry a builder takes has no minus sign. -/
theorem StatedEntry.not_minus (hc : c.Plain) {piece : List Char} {e : Entry α}
    (h : c.StatedEntry piece e) (hValid : e.fault? = none) {n : List Char}
    (hn : numberText? piece = some n) : n.head? ≠ some '-' := by
  intro hMinus
  cases h with
  | bare hVal hPad =>
      rw [numberText?_bare hc hVal.1 hPad] at hn
      cases hn
  | @shared front t back share v hShare hVal hBack =>
      obtain ⟨n', q, hNum, hn', hQuantity⟩ := hShare.exists_numeral back
      obtain rfl : n = n' := Option.some.inj (hn.symm.trans hn')
      have hSign : q ≤ 0 := hNum.nonpos hMinus
      rcases hQuantity with rfl | rfl
      · have hPos := weightedPart_of_valid hValid rfl
        linarith
      · have hPos := (fixedPart_of_valid hValid rfl).1
        linarith

/-! ## Pieces -/

/-- A piece that the pattern describes is one that the reader cuts, with a
number that has no sign. -/
theorem entryForm_iff_inForm (hc : c.Plain) (input : String)
    {piece : List Char} :
    Spec.EntryForm c.token piece ↔
      c.InForm input piece ∧
        ∀ n, numberText? piece = some n → Unsigned n := by
  rw [inForm_iff_statedEntry hc input]
  constructor
  · intro h
    cases h with
    | @bare t piece ht hPad =>
        have hNone := numberText?_bare hc ht hPad
        exact ⟨⟨_, .bare ⟨ht, rfl⟩ hPad⟩, by simp [hNone]⟩
    | @weight n front t back q hn hPad ht hBack =>
        refine ⟨⟨_, .shared (.weight (.plain hn) hPad) ⟨ht, rfl⟩ hBack⟩, ?_⟩
        intro n' hn'
        rw [numberText?_weight (.plain hn) hPad, Option.some.injEq] at hn'
        exact hn' ▸ hn.unsigned
    | @percentage n front gap t back q hn hPad hGap ht hBack =>
        refine ⟨⟨_, .shared (.percentage (.plain hn) hPad hGap) ⟨ht, rfl⟩
          hBack⟩, ?_⟩
        intro n' hn'
        rw [numberText?_percentage (.plain hn) hPad hGap,
          Option.some.injEq] at hn'
        exact hn' ▸ hn.unsigned
  · rintro ⟨⟨e, h⟩, hUnsigned⟩
    cases h with
    | bare hVal hPad => exact .bare hVal.1 hPad
    | @shared front t back share v hShare hVal hBack =>
        cases hShare with
        | @weight n _ q hNum hPad =>
            have hn := hUnsigned n (numberText?_weight hNum hPad back)
            exact .weight (hNum.numeral hn) hPad hVal.1 hBack
        | @percentage n _ gap q hNum hPad hGap =>
            have hn := hUnsigned n (numberText?_percentage hNum hPad hGap back)
            exact .percentage (hNum.numeral hn) hPad hGap hVal.1 hBack

/-- Blanks around a piece do not matter to the pattern. -/
theorem entryForm_padded_iff (hc : c.Plain) {piece padded : List Char}
    (h : Padded piece padded) :
    Spec.EntryForm c.token padded ↔ Spec.EntryForm c.token piece := by
  rw [entryForm_iff_inForm hc "", entryForm_iff_inForm hc "",
    InForm.padded_iff h, numberText?_padded h]

theorem not_mem_of_entryForm (hc : c.Plain) {piece : List Char}
    (h : Spec.EntryForm c.token piece) :
    ',' ∉ piece ∧ '[' ∉ piece ∧ ']' ∉ piece := by
  obtain ⟨e, he⟩ := (inForm_iff_statedEntry hc "").1
    ((entryForm_iff_inForm hc "").1 h).1
  exact he.not_mem hc.lenient

theorem not_blank_of_entryForm (hc : c.Plain) {piece : List Char}
    (h : Spec.EntryForm c.token piece) : ¬ Blank piece := by
  obtain ⟨e, he⟩ := (inForm_iff_statedEntry hc "").1
    ((entryForm_iff_inForm hc "").1 h).1
  exact he.not_blank hc.lenient

/-! ## Whole texts -/

/-- Blanks inside of a bracket stay, and blanks at an end without bracket
go. -/
theorem exists_trim_brackets {o e : List Char} (ho : o = ['['] ∨ o = [])
    (he : e = [']'] ∨ e = []) (body : List Char) :
    ∃ u, Padded u body ∧ trim (o ++ body ++ e) = o ++ u ++ e := by
  have hOpen : isBlank '[' = false := by decide
  have hClose : isBlank ']' = false := by decide
  rcases ho with rfl | rfl
  · have hStart : trim ('[' :: (body ++ e)) = '[' :: trimEnd (body ++ e) :=
      trim_append_cons hOpen [] (body ++ e)
    rcases he with rfl | rfl
    · refine ⟨body, ⟨[], [], blank_nil, blank_nil, by simp⟩, ?_⟩
      exact hStart.trans
        (congrArg ('[' :: ·) (trimEnd_append_cons hClose body []))
    · refine ⟨trimEnd body, padded_trimEnd body, ?_⟩
      simpa using hStart
  · rcases he with rfl | rfl
    · refine ⟨trimStart body, padded_trimStart body, ?_⟩
      exact trim_append_cons hClose body []
    · refine ⟨trim body, padded_trim body, ?_⟩
      simp

/-- The pattern of whole texts describes the texts whose pieces it
describes. -/
theorem accepts_iff_forall_entryForm (hc : c.Plain)
    (hs : c.spec = Spec.specPattern c.token) (text : String) :
    c.accepts text = true ↔
      ∀ p ∈ pieces ',' (withoutBrackets (trim text.toList)),
        Spec.EntryForm c.token p := by
  rw [accepts, Pattern.accepts_iff_matches, hs, Spec.matches_specPattern_iff]
  constructor
  · rintro ⟨l, o, ps, e, r, hl, ho, hne, hps, he, hr, hText⟩
    have hForm := fun p hp => not_mem_of_entryForm hc (hps p hp)
    have hOpen : '[' ∉ [','].intercalate ps :=
      not_mem_intercalate (by decide) fun p hp => (hForm p hp).2.1
    have hClose : ']' ∉ [','].intercalate ps :=
      not_mem_intercalate (by decide) fun p hp => (hForm p hp).2.2
    obtain ⟨u, hPad, hTrim⟩ := exists_trim_brackets ho he ([','].intercalate ps)
    rw [hText, trim_padded hl hr, hTrim, withoutBrackets_append ho he
      (hPad.not_mem hOpen) (hPad.not_mem hClose),
      ← forall_mem_pieces_padded (fun p q h => entryForm_padded_iff hc h)
        (by decide) hPad, pieces_intercalate hne
        fun p hp => (hForm p hp).1]
    exact hps
  · intro h
    obtain ⟨l, r, hl, hr, hText⟩ := padded_trim text.toList
    obtain ⟨o, e, ho, he, hTrim⟩ := exists_eq_withoutBrackets (trim text.toList)
    refine ⟨l, o, _, e, r, hl, ho, pieces_ne_nil _ _, h, he, hr, ?_⟩
    rw [intercalate_pieces, ← hTrim]
    exact hText

theorem not_blank_of_accepts (hc : c.Plain)
    (hs : c.spec = Spec.specPattern c.token) {text : String}
    (h : c.accepts text = true) :
    ¬ Blank (withoutBrackets (trim text.toList)) := by
  intro hBlank
  have hPieces := (accepts_iff_forall_entryForm hc hs text).1 h
  rw [pieces_of_not_mem (hBlank.not_mem (by decide)),
    List.forall_mem_singleton] at hPieces
  exact not_blank_of_entryForm hc hPieces hBlank

end Codec

namespace Kind

/-! ## The pattern against the reader -/

/-- **The pattern of whole texts against the reader.** It matches a text
exactly if every piece between the commas is read or refused only for the value
of a token that matches, and no number in front of a colon has a sign. A
bracket on one side makes no difference to it. -/
theorem accepts_iff_pieces (k : Kind) :
    Codec.ofReader k.reader = .ok k.codec ∧
    ∀ text : String,
      k.codec.accepts text = true ↔
        ∀ piece ∈ pieces ',' (Codec.withoutBrackets (trim text.toList)),
          k.codec.InForm text piece ∧
          ∀ n, Codec.numberText? piece = some n →
            n.head? ≠ some '+' ∧ n.head? ≠ some '-' := by
  refine ⟨k.ofReader_reader, fun text => ?_⟩
  rw [Codec.accepts_iff_forall_entryForm k.plain_codec rfl]
  refine forall₂_congr fun piece _ => ?_
  exact Codec.entryForm_iff_inForm k.plain_codec text

/-- **What a check says about a text that is read.** The pattern misses the
texts with a plus sign in front of a number, and no others. -/
theorem accepts_iff_of_read (k : Kind) (c : Codec k.Value)
    (hc : Codec.ofReader k.reader = .ok c) (text : String)
    (d : Distribution k.Value) (h : c.read text = .ok d) :
    c.accepts text = true ↔
      ∀ piece ∈ pieces ',' (Codec.withoutBrackets (trim text.toList)),
        ∀ n, Codec.numberText? piece = some n → n.head? ≠ some '+' := by
  obtain rfl : k.codec = c := Except.ok.inj (k.ofReader_reader.symm.trans hc)
  obtain ⟨es, hEntries, hBuilt⟩ := Codec.ofEntries_of_read h
  obtain ⟨-, hValid⟩ := Distribution.session_of_ofEntries hBuilt
  rw [Codec.accepts_iff_forall_entryForm k.plain_codec rfl]
  refine forall₂_congr fun piece hPiece => ?_
  obtain ⟨e, he, hRead⟩ := Codec.exists_partner
    (Codec.readEntry_of_readEntries hEntries) piece hPiece
  have hStated := (Codec.readEntry_eq_ok_iff k.plain_codec).1 hRead
  rw [Codec.entryForm_iff_inForm k.plain_codec text]
  constructor
  · rintro ⟨-, hUnsigned⟩ n hn
    exact (hUnsigned n hn).1
  · intro hPlus
    refine ⟨Or.inl ⟨e, hRead⟩, fun n hn => ⟨hPlus n hn, ?_⟩⟩
    exact hStated.not_minus k.plain_codec (hValid e he) hn

/-- A text that is read and has no plus sign in front of a number. -/
theorem accepts_iff_of_read_words :
    ∃ d, Kind.word.codec.read "[30%:get, put, 1.5 : remove]" = .ok d ∧
      Kind.word.codec.accepts "[30%:get, put, 1.5 : remove]" = true := by
  have hOk : (Kind.word.codec.read "[30%:get, put, 1.5 : remove]").isOk =
      true := by decide +kernel
  have hNoPlus : ∀ piece ∈ pieces ',' (Codec.withoutBrackets
      (trim "[30%:get, put, 1.5 : remove]".toList)),
      (Codec.numberText? piece).all (fun n => n.head? != some '+') = true := by
    decide +kernel
  cases hRead : Kind.word.codec.read "[30%:get, put, 1.5 : remove]" with
  | error e =>
      rw [hRead] at hOk
      cases hOk
  | ok d =>
      refine ⟨d, rfl, ?_⟩
      refine
        (accepts_iff_of_read .word _ (ofReader_reader .word) _ d hRead).2 ?_
      intro piece hPiece n hn
      have hFirst := hNoPlus piece hPiece
      rw [hn] at hFirst
      simpa using hFirst

/-- A plus sign in front of a number is read but not matched. -/
theorem plus_read_not_accepted :
    Codec.ofReader Kind.integer.reader = .ok Kind.integer.codec ∧
      (Kind.integer.codec.read "+1:5").isOk = true ∧
      Kind.integer.codec.accepts "+1:5" = false :=
  ⟨ofReader_reader .integer, by decide +kernel, by decide +kernel⟩

/-- **Why a text that matches is not read.** A bracket on one side only is
reported as such. Without that, the reader refuses the value of a token that
matches or what the builder finds about weights and probabilities; the text is
neither malformed nor empty. -/
theorem read_error_of_accepts (k : Kind) (c : Codec k.Value)
    (hc : Codec.ofReader k.reader = .ok c) (text : String)
    (h : c.accepts text = true) :
    (Codec.Lopsided text.toList →
      c.read text = .error (.malformed text .unbalancedBrackets)) ∧
    (¬ Codec.Lopsided text.toList → ∀ e, c.read text = .error e →
      (∃ token, e = .unrecognizedToken token c.reader.pattern ∧
        c.token.accepts token.toList = true ∧
        c.reader.read token.toList = none) ∨
      e.aboutShares = true) := by
  obtain rfl : k.codec = c := Except.ok.inj (k.ofReader_reader.symm.trans hc)
  have hEntries := k.codec.readEntries_eq text
  constructor
  · intro hSide
    rw [if_pos hSide] at hEntries
    rw [Codec.read, hEntries]
    rfl
  · intro hSide e he
    have hBody : ¬ (trim (Codec.withoutBrackets
        (trim text.toList))).isEmpty = true := by
      rw [isEmpty_trim_iff]
      exact Codec.not_blank_of_accepts k.plain_codec rfl h
    rw [if_neg hSide, if_neg hBody] at hEntries
    rw [Codec.read, hEntries] at he
    rcases Codec.bind_eq_error_iff.1 he with hPieces | ⟨es, hPieces, hBuilt⟩
    · obtain ⟨piece, hPiece, hRefused⟩ := Codec.mapM_eq_error hPieces
      have hForm := (Codec.accepts_iff_forall_entryForm k.plain_codec rfl
        text).1 h piece hPiece
      have hInForm := ((Codec.entryForm_iff_inForm k.plain_codec text).1
        hForm).1
      exact Or.inl (hInForm.readEntry_error hRefused)
    · have hne : es ≠ [] := by
        rintro rfl
        have hNone := List.forall₂_nil_right_iff.1
          (Codec.mapM_eq_ok_iff.1 hPieces)
        exact pieces_ne_nil _ _ hNone
      exact Or.inr (Distribution.ofEntries_error hne hBuilt)

/-- A text that matches, with a value that is out of range. -/
theorem read_error_of_accepts_large :
    let text := "[1:7, 99999999999999999999]"
    Kind.integer.codec.accepts text = true ∧
      ∀ e, Kind.integer.codec.read text = .error e →
        (∃ token,
          e = .unrecognizedToken token Kind.integer.codec.reader.pattern ∧
          Kind.integer.codec.token.accepts token.toList = true ∧
          Kind.integer.codec.reader.read token.toList = none) ∨
        e.aboutShares = true := by
  intro text
  have hAccepts : Kind.integer.codec.accepts text = true := by decide +kernel
  refine ⟨hAccepts, ?_⟩
  exact (read_error_of_accepts .integer _ (ofReader_reader .integer) text
    hAccepts).2 (by decide +kernel)

/-- A bracket on one side only is matched but not read. -/
theorem lopsided_accepted :
    Codec.ofReader Kind.integer.reader = .ok Kind.integer.codec ∧
      Kind.integer.codec.accepts "[1, 2" = true ∧
      Kind.integer.codec.read "[1, 2" =
        .error (.malformed "[1, 2" .unbalancedBrackets) := by
  refine ⟨ofReader_reader .integer, by decide +kernel, ?_⟩
  have hSide : Codec.Lopsided "[1, 2".toList := by decide +kernel
  rw [Codec.read, Codec.readEntries_eq, if_pos hSide]
  rfl

end Kind

end ValueMix
