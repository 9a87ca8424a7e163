import Mathlib
import ValueMix.Proofs.BuiltIn

/-!
# What the pattern of whole texts describes

The pattern of an entry allows blanks in several places next to each other, so
one text can match in several ways. Read as rules, it describes a token with
blanks around it, by itself or behind a number without sign, perhaps a percent
sign, and a colon. The pattern of whole texts describes such pieces, joined
with commas; each of the two brackets may be there or not.

## Main results

* `matches_entry_iff` — the pattern of an entry against its rules.
* `matches_specPattern_iff` — the pattern of whole texts.
-/

namespace ValueMix.Spec

open Pattern ValueMix.Number ValueMix.Text

/-! ## Entries -/

/-- What the pattern of an entry describes, for a given pattern of tokens. -/
inductive EntryForm (token : Pattern) : List Char → Prop where
  /-- A token by itself. -/
  | bare {t piece : List Char} :
      token.Matches t → Padded t piece → EntryForm token piece
  /-- A token behind a number and a colon. -/
  | weight {n front t back : List Char} {q : ℚ} :
      Numeral n q → Padded n front → token.Matches t → Padded t back →
      EntryForm token (front ++ ':' :: back)
  /-- A token behind a number, a percent sign and a colon. -/
  | percentage {n front gap t back : List Char} {q : ℚ} :
      Numeral n q → Padded n front → Blank gap → token.Matches t →
      Padded t back → EntryForm token (front ++ '%' :: gap ++ ':' :: back)

theorem matches_optional_single_iff {c : Char} {cs : List Char} :
    (optional (char (.single c))).Matches cs ↔ cs = [c] ∨ cs = [] := by
  rw [matches_optional_iff, matches_single_iff]

theorem matches_numberFront_iff {cs : List Char} :
    numberFront.Matches cs ↔
      ∃ n l s gap r, (∃ q, Numeral n q) ∧ Blank l ∧ (s = ['%'] ∨ s = []) ∧
        Blank gap ∧ Blank r ∧ cs = n ++ l ++ s ++ gap ++ ':' :: r := by
  simp only [numberFront, Pattern.sequence, matches_seq_iff,
    matches_number_iff, matches_blanks_iff, matches_single_iff,
    matches_optional_single_iff]
  constructor
  · rintro ⟨n, _, hn, ⟨l, _, hl, ⟨s, _, hs, ⟨gap, _, hgap,
      ⟨_, r, rfl, hr, rfl⟩, rfl⟩, rfl⟩, rfl⟩, rfl⟩
    exact ⟨n, l, s, gap, r, hn, hl, hs, hgap, hr, by simp⟩
  · rintro ⟨n, l, s, gap, r, hn, hl, hs, hgap, hr, rfl⟩
    exact ⟨n, _, hn, ⟨l, _, hl, ⟨s, _, hs, ⟨gap, _, hgap,
      ⟨[':'], r, rfl, hr, rfl⟩, rfl⟩, rfl⟩, rfl⟩, by simp⟩

theorem matches_entryParts_iff {token : Pattern} {cs : List Char} :
    (sequence (entryParts token)).Matches cs ↔
      ∃ l f t r, Blank l ∧ (numberFront.Matches f ∨ f = []) ∧
        token.Matches t ∧ Blank r ∧ cs = l ++ f ++ t ++ r := by
  simp only [entryParts, Pattern.sequence, matches_seq_iff, matches_blanks_iff,
    matches_optional_iff]
  constructor
  · rintro ⟨l, _, hl, ⟨f, _, hf, ⟨t, r, ht, hr, rfl⟩, rfl⟩, rfl⟩
    exact ⟨l, f, t, r, hl, hf, ht, hr, by simp⟩
  · rintro ⟨l, f, t, r, hl, hf, ht, hr, rfl⟩
    exact ⟨l, _, hl, ⟨f, _, hf, ⟨t, r, ht, hr, rfl⟩, rfl⟩, by simp⟩

/-- Blanks next to each other may be shared out in any way. -/
theorem matches_entry_iff {token : Pattern} {piece : List Char} :
    (sequence (entryParts token)).Matches piece ↔ EntryForm token piece := by
  rw [matches_entryParts_iff]
  constructor
  · rintro ⟨l, f, t, r, hl, hFront | rfl, ht, hr, rfl⟩
    · obtain ⟨n, b, s, gap, b', ⟨q, hn⟩, hb, rfl | rfl, hgap, hb', rfl⟩ :=
        matches_numberFront_iff.1 hFront
      · have hForm : EntryForm token
            ((l ++ n ++ b) ++ '%' :: gap ++ ':' :: (b' ++ t ++ r)) :=
          .percentage hn ⟨l, b, hl, hb, rfl⟩ hgap ht ⟨b', r, hb', hr, rfl⟩
        simpa using hForm
      · have hBlank : Blank (b ++ gap) := List.forall_mem_append.2 ⟨hb, hgap⟩
        have hForm : EntryForm token
            ((l ++ n ++ (b ++ gap)) ++ ':' :: (b' ++ t ++ r)) :=
          .weight hn ⟨l, b ++ gap, hl, hBlank, rfl⟩ ht ⟨b', r, hb', hr, rfl⟩
        simpa using hForm
    · exact .bare ht ⟨l, r, hl, hr, by simp⟩
  · intro h
    cases h with
    | @bare t piece ht hPad =>
        obtain ⟨l, r, hl, hr, rfl⟩ := hPad
        exact ⟨l, [], t, r, hl, Or.inr rfl, ht, hr, by simp⟩
    | @weight n front t back q hn hPad ht hBack =>
        obtain ⟨l, b, hl, hb, rfl⟩ := hPad
        obtain ⟨b', r, hb', hr, rfl⟩ := hBack
        have hFront := matches_numberFront_iff.2
          ⟨n, b, [], [], b', ⟨q, hn⟩, hb, Or.inr rfl, blank_nil, hb', rfl⟩
        exact ⟨l, _, t, r, hl, Or.inl hFront, ht, hr, by simp⟩
    | @percentage n front gap t back q hn hPad hgap ht hBack =>
        obtain ⟨l, b, hl, hb, rfl⟩ := hPad
        obtain ⟨b', r, hb', hr, rfl⟩ := hBack
        have hFront := matches_numberFront_iff.2
          ⟨n, b, ['%'], gap, b', ⟨q, hn⟩, hb, Or.inl rfl, hgap, hb', rfl⟩
        exact ⟨l, _, t, r, hl, Or.inl hFront, ht, hr, by simp⟩

/-! ## Whole texts -/

/-- A repetition of a separator and a piece. -/
theorem matches_star_comma_iff {ps : List Pattern} {cs : List Char} :
    (star (sequence (char (.single ',') :: ps))).Matches cs ↔
      ∃ xss : List (List Char), (∀ xs ∈ xss, (sequence ps).Matches xs) ∧
        cs = (xss.map ([','] ++ ·)).flatten := by
  rw [matches_star_iff]
  constructor
  · rintro ⟨yss, hRounds, rfl⟩
    have hRound : ∀ ys ∈ yss, (sequence ps).Matches ys.tail ∧
        [','] ++ ys.tail = ys := by
      intro ys hys
      obtain ⟨_, xs, hComma, hxs, rfl⟩ :=
        matches_sequence_cons_iff.1 (hRounds ys hys)
      rw [matches_single_iff.1 hComma]
      exact ⟨hxs, rfl⟩
    refine ⟨yss.map List.tail, ?_, ?_⟩
    · rw [List.forall_mem_map]
      exact fun ys hys => (hRound ys hys).1
    · have hSame : (yss.map List.tail).map ([','] ++ ·) = yss := by
        rw [List.map_map]
        exact (List.map_congr_left fun ys hys => (hRound ys hys).2).trans
          (List.map_id yss)
      rw [hSame]
  · rintro ⟨xss, hPieces, rfl⟩
    refine ⟨_, fun ys hys => ?_, rfl⟩
    obtain ⟨xs, hxs, rfl⟩ := List.mem_map.1 hys
    exact .cons (matches_single_iff.2 rfl) (hPieces xs hxs)

/-- Pieces with commas between them, perhaps with a bracket on either side and
blanks around all. -/
theorem matches_specPattern_iff {token : Pattern} {cs : List Char} :
    (specPattern token).Matches cs ↔
      ∃ l o ps e r, Blank l ∧ (o = ['['] ∨ o = []) ∧ ps ≠ [] ∧
        (∀ p ∈ ps, EntryForm token p) ∧ (e = [']'] ∨ e = []) ∧ Blank r ∧
        cs = l ++ (o ++ [','].intercalate ps ++ e) ++ r := by
  simp only [specPattern, matches_sequence_append_iff, Pattern.sequence,
    matches_seq_iff, matches_blanks_iff, matches_optional_single_iff,
    matches_entry_iff, matches_star_comma_iff]
  constructor
  · rintro ⟨_, _, ⟨_, p, ⟨l, o, hl, ho, rfl⟩, hp, rfl⟩,
      ⟨_, _, ⟨ps, hps, rfl⟩, ⟨e, r, he, hr, rfl⟩, rfl⟩, rfl⟩
    refine ⟨l, o, p :: ps, e, r, hl, ho, by simp,
      List.forall_mem_cons.2 ⟨hp, hps⟩, he, hr, ?_⟩
    rw [intercalate_cons]
    simp
  · rintro ⟨l, o, ps, e, r, hl, ho, hne, hps, he, hr, rfl⟩
    obtain ⟨p, ps, rfl⟩ := List.exists_cons_of_ne_nil hne
    rw [List.forall_mem_cons] at hps
    refine ⟨_, _, ⟨_, p, ⟨l, o, hl, ho, rfl⟩, hps.1, rfl⟩,
      ⟨_, _, ⟨ps, hps.2, rfl⟩, ⟨e, r, he, hr, rfl⟩, rfl⟩, ?_⟩
    rw [intercalate_cons]
    simp

end ValueMix.Spec
