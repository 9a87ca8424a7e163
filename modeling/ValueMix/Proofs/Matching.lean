import Mathlib
import ValueMix.Pattern.Basic

/-!
# Deciding patterns

`Pattern.accepts` follows a text character by character and keeps the list of
residual patterns. It accepts exactly the texts that the rules of
`Pattern.Matches` derive.

## Main results

* `nullable_iff` — the patterns of the empty text.
* `matches_cons_iff` — a pattern matches a text that is not empty exactly if
  one of its residuals matches what stands behind the first character.
* `accepts_iff_matches` — the decision is right.
* `Matches.forall_mem` — which characters a match consists of.
-/

namespace ValueMix.Pattern

/-! ## The rules, read backwards -/

@[simp] theorem not_matches_never (cs : List Char) : ¬ Matches never cs :=
  nofun

@[simp] theorem matches_nothing_iff {cs : List Char} :
    Matches nothing cs ↔ cs = [] := by
  constructor
  · rintro ⟨⟩
    rfl
  · rintro rfl
    exact .nothing

@[simp] theorem matches_char_iff {s : CharSet} {cs : List Char} :
    Matches (char s) cs ↔ ∃ c, s.contains c = true ∧ cs = [c] := by
  constructor
  · rintro ⟨⟩
    exact ⟨_, ‹_›, rfl⟩
  · rintro ⟨c, hc, rfl⟩
    exact .char hc

theorem matches_seq_iff {p q : Pattern} {cs : List Char} :
    Matches (seq p q) cs ↔
      ∃ xs ys, Matches p xs ∧ Matches q ys ∧ cs = xs ++ ys := by
  constructor
  · rintro ⟨⟩
    exact ⟨_, _, ‹_›, ‹_›, rfl⟩
  · rintro ⟨xs, ys, hx, hy, rfl⟩
    exact .seq hx hy

theorem matches_alt_iff {p q : Pattern} {cs : List Char} :
    Matches (alt p q) cs ↔ Matches p cs ∨ Matches q cs := by
  constructor
  · intro h
    cases h with
    | left h => exact Or.inl h
    | right h => exact Or.inr h
  · rintro (h | h)
    · exact .left h
    · exact .right h

/-- A repetition that is not empty begins with a round that is not empty. -/
theorem matches_star_cons_iff {p : Pattern} {c : Char} {cs : List Char} :
    Matches (star p) (c :: cs) ↔
      ∃ xs ys, Matches p (c :: xs) ∧ Matches (star p) ys ∧ cs = xs ++ ys := by
  constructor
  · intro h
    generalize hPattern : star p = r at h
    generalize hText : c :: cs = text at h
    induction h with
    | starNil => cases hText
    | @starCons q xs ys hx hy _ ih =>
        cases hPattern
        cases xs with
        | nil => exact ih rfl hText
        | cons d xs =>
            rw [List.cons_append] at hText
            obtain ⟨rfl, rfl⟩ := List.cons.inj hText
            exact ⟨xs, ys, hx, hy, rfl⟩
    | nothing => cases hPattern
    | char _ => cases hPattern
    | seq _ _ _ _ => cases hPattern
    | left _ _ => cases hPattern
    | right _ _ => cases hPattern
  · rintro ⟨xs, ys, hx, hy, rfl⟩
    exact .starCons hx hy

/-! ## The decision -/

/-- The patterns of the empty text. -/
theorem nullable_iff {p : Pattern} : p.nullable = true ↔ Matches p [] := by
  induction p with
  | never => simp [nullable]
  | nothing => simp [nullable]
  | char s => simp [nullable]
  | seq p q hp hq =>
      rw [nullable, Bool.and_eq_true, hp, hq, matches_seq_iff]
      constructor
      · rintro ⟨hx, hy⟩
        exact ⟨[], [], hx, hy, rfl⟩
      · rintro ⟨xs, ys, hx, hy, hNil⟩
        obtain ⟨rfl, rfl⟩ := List.append_eq_nil_iff.1 hNil.symm
        exact ⟨hx, hy⟩
  | alt p q hp hq => rw [nullable, Bool.or_eq_true, hp, hq, matches_alt_iff]
  | star p _ => exact iff_of_true rfl .starNil

private theorem matches_seq_cons_iff {p q : Pattern} {c : Char}
    {cs : List Char} :
    Matches (seq p q) (c :: cs) ↔
      (∃ xs ys, Matches p (c :: xs) ∧ Matches q ys ∧ cs = xs ++ ys) ∨
        (Matches p [] ∧ Matches q (c :: cs)) := by
  rw [matches_seq_iff]
  constructor
  · rintro ⟨xs, ys, hx, hy, hText⟩
    cases xs with
    | nil => exact Or.inr ⟨hx, hText ▸ hy⟩
    | cons d xs =>
        rw [List.cons_append] at hText
        obtain ⟨rfl, rfl⟩ := List.cons.inj hText
        exact Or.inl ⟨xs, ys, hx, hy, rfl⟩
  · rintro (⟨xs, ys, hx, hy, rfl⟩ | ⟨hx, hy⟩)
    · exact ⟨c :: xs, ys, hx, hy, rfl⟩
    · exact ⟨[], c :: cs, hx, hy, rfl⟩

private theorem exists_residual_seq {rs : List Pattern} {q : Pattern}
    {cs : List Char} :
    (∃ r ∈ rs.map (seq · q), Matches r cs) ↔
      ∃ xs ys, (∃ r ∈ rs, Matches r xs) ∧ Matches q ys ∧ cs = xs ++ ys := by
  constructor
  · rintro ⟨r, hr, hMatch⟩
    obtain ⟨s, hs, rfl⟩ := List.mem_map.1 hr
    obtain ⟨xs, ys, hx, hy, rfl⟩ := matches_seq_iff.1 hMatch
    exact ⟨xs, ys, ⟨s, hs, hx⟩, hy, rfl⟩
  · rintro ⟨xs, ys, ⟨s, hs, hx⟩, hy, rfl⟩
    exact ⟨_, List.mem_map.2 ⟨s, hs, rfl⟩, .seq hx hy⟩

/-- What a pattern matches behind a first character, its residuals match. -/
theorem matches_cons_iff {p : Pattern} {c : Char} {cs : List Char} :
    Matches p (c :: cs) ↔ ∃ r ∈ residuals c p, Matches r cs := by
  induction p generalizing cs with
  | never => simp [residuals]
  | nothing => simp [residuals]
  | char s =>
      rw [residuals, matches_char_iff]
      split
      · rename_i hc
        simp only [List.mem_singleton, exists_eq_left, matches_nothing_iff]
        constructor
        · rintro ⟨d, -, hText⟩
          exact (List.cons.inj hText).2
        · rintro rfl
          exact ⟨c, hc, rfl⟩
      · rename_i hc
        simp only [List.not_mem_nil, false_and, exists_false, iff_false]
        rintro ⟨d, hd, hText⟩
        exact hc ((List.cons.inj hText).1 ▸ hd)
  | seq p q hp hq =>
      simp only [residuals, List.mem_append, or_and_right, exists_or]
      rw [matches_seq_cons_iff, exists_residual_seq]
      refine or_congr ?_ ?_
      · simp only [hp]
      · rw [← nullable_iff]
        cases p.nullable with
        | false => simp
        | true => simpa using hq
  | alt p q hp hq =>
      simp only [residuals, List.mem_append, or_and_right, exists_or]
      rw [matches_alt_iff, hp, hq]
  | star p hp =>
      rw [residuals, exists_residual_seq, matches_star_cons_iff]
      simp only [hp]

theorem mem_advance {c : Char} {ps : List Pattern} {r : Pattern} :
    r ∈ advance c ps ↔ ∃ p ∈ ps, r ∈ residuals c p := by
  rw [advance, List.mem_eraseDups, List.mem_flatMap]

theorem anyAccepts_iff {ps : List Pattern} {cs : List Char} :
    anyAccepts ps cs = true ↔ ∃ p ∈ ps, Matches p cs := by
  induction cs generalizing ps with
  | nil => simp only [anyAccepts, List.any_eq_true, nullable_iff]
  | cons c rest ih =>
      rw [anyAccepts, ih]
      simp only [mem_advance, matches_cons_iff]
      constructor
      · rintro ⟨r, ⟨p, hp, hr⟩, hMatch⟩
        exact ⟨p, hp, r, hr, hMatch⟩
      · rintro ⟨p, hp, r, hr, hMatch⟩
        exact ⟨r, ⟨p, hp, hr⟩, hMatch⟩

/-- A pattern accepts exactly the texts that it describes. -/
theorem accepts_iff_matches {p : Pattern} {cs : List Char} :
    p.accepts cs = true ↔ Matches p cs := by
  rw [accepts, anyAccepts_iff]
  simp

/-! ## Combinations -/

theorem matches_optional_iff {p : Pattern} {cs : List Char} :
    Matches (optional p) cs ↔ Matches p cs ∨ cs = [] := by
  rw [optional, matches_alt_iff, matches_nothing_iff]

theorem matches_sequence_cons_iff {p : Pattern} {ps : List Pattern}
    {cs : List Char} :
    Matches (sequence (p :: ps)) cs ↔
      ∃ xs ys, Matches p xs ∧ Matches (sequence ps) ys ∧ cs = xs ++ ys := by
  cases ps with
  | nil =>
      rw [sequence, sequence]
      constructor
      · intro h
        exact ⟨cs, [], h, .nothing, (List.append_nil cs).symm⟩
      · rintro ⟨xs, ys, hx, hy, rfl⟩
        rw [matches_nothing_iff.1 hy, List.append_nil]
        exact hx
  | cons q ps => exact matches_seq_iff

theorem Matches.cons {p : Pattern} {ps : List Pattern} {xs ys : List Char}
    (hx : Matches p xs) (hy : Matches (sequence ps) ys) :
    Matches (sequence (p :: ps)) (xs ++ ys) :=
  matches_sequence_cons_iff.2 ⟨xs, ys, hx, hy, rfl⟩

theorem matches_sequence_append_iff {ps qs : List Pattern} {cs : List Char} :
    Matches (sequence (ps ++ qs)) cs ↔
      ∃ xs ys, Matches (sequence ps) xs ∧ Matches (sequence qs) ys ∧
        cs = xs ++ ys := by
  induction ps generalizing cs with
  | nil => simp [sequence]
  | cons p ps ih =>
      rw [List.cons_append, matches_sequence_cons_iff]
      simp only [matches_sequence_cons_iff, ih]
      constructor
      · rintro ⟨xs, _, hx, ⟨ys, zs, hy, hz, rfl⟩, rfl⟩
        exact ⟨xs ++ ys, zs, ⟨xs, ys, hx, hy, rfl⟩, hz, by simp⟩
      · rintro ⟨_, zs, ⟨xs, ys, hx, hy, rfl⟩, hz, rfl⟩
        exact ⟨xs, ys ++ zs, hx, ⟨ys, zs, hy, hz, rfl⟩, by simp⟩

/-- A repetition of one character set is a text over that set. -/
theorem matches_star_char_iff {s : CharSet} {cs : List Char} :
    Matches (star (char s)) cs ↔ ∀ c ∈ cs, s.contains c = true := by
  induction cs with
  | nil => exact iff_of_true .starNil (by simp)
  | cons c rest ih =>
      rw [matches_star_cons_iff]
      constructor
      · rintro ⟨xs, ys, hx, hy, rfl⟩
        obtain ⟨d, hd, hText⟩ := matches_char_iff.1 hx
        obtain ⟨rfl, rfl⟩ := List.cons.inj hText
        rw [List.nil_append] at ih ⊢
        exact List.forall_mem_cons.2 ⟨hd, ih.1 hy⟩
      · intro h
        obtain ⟨hc, hRest⟩ := List.forall_mem_cons.1 h
        exact ⟨[], rest, .char hc, ih.2 hRest, rfl⟩

/-- At least one character of a set. -/
theorem matches_some_char_iff {s : CharSet} {cs : List Char} :
    Matches (seq (char s) (star (char s))) cs ↔
      cs ≠ [] ∧ ∀ c ∈ cs, s.contains c = true := by
  rw [matches_seq_iff]
  constructor
  · rintro ⟨xs, ys, hx, hy, rfl⟩
    obtain ⟨c, hc, rfl⟩ := matches_char_iff.1 hx
    exact ⟨by simp, List.forall_mem_cons.2 ⟨hc, matches_star_char_iff.1 hy⟩⟩
  · rintro ⟨hne, h⟩
    cases cs with
    | nil => exact absurd rfl hne
    | cons c rest =>
        obtain ⟨hc, hRest⟩ := List.forall_mem_cons.1 h
        exact ⟨[c], rest, .char hc, matches_star_char_iff.2 hRest, rfl⟩

/-- A repetition is a list of rounds, one after another. -/
theorem matches_star_of_forall {p : Pattern} {xss : List (List Char)}
    (h : ∀ xs ∈ xss, Matches p xs) : Matches (star p) xss.flatten := by
  induction xss with
  | nil => exact .starNil
  | cons xs rest ih =>
      rw [List.flatten_cons]
      exact .starCons (h xs (by simp)) (ih fun ys hys => h ys (by simp [hys]))

/-- The texts of a repetition are lists of rounds, one after another. -/
theorem matches_star_iff {p : Pattern} {cs : List Char} :
    Matches (star p) cs ↔
      ∃ xss : List (List Char), (∀ xs ∈ xss, Matches p xs) ∧
        cs = xss.flatten := by
  constructor
  · intro h
    generalize hPattern : star p = r at h
    induction h with
    | starNil => exact ⟨[], by simp, rfl⟩
    | @starCons q xs ys hx _ _ ih =>
        cases hPattern
        obtain ⟨xss, hAll, rfl⟩ := ih rfl
        exact ⟨xs :: xss, List.forall_mem_cons.2 ⟨hx, hAll⟩, rfl⟩
    | nothing => cases hPattern
    | char _ => cases hPattern
    | seq _ _ _ _ => cases hPattern
    | left _ _ => cases hPattern
    | right _ _ => cases hPattern
  · rintro ⟨xss, hAll, rfl⟩
    exact matches_star_of_forall hAll

/-! ## The characters of a match -/

/-- Every character set of a pattern lies within `P`. -/
def Within (P : Char → Prop) : Pattern → Prop
  | never => True
  | nothing => True
  | char s => ∀ c, s.contains c = true → P c
  | seq p q => Within P p ∧ Within P q
  | alt p q => Within P p ∧ Within P q
  | star p => Within P p

/-- A match consists of characters from the sets of the pattern. -/
theorem Matches.forall_mem {P : Char → Prop} {p : Pattern} {cs : List Char}
    (h : Matches p cs) (hp : Within P p) : ∀ c ∈ cs, P c := by
  induction h with
  | nothing => simp
  | char hc =>
      intro c hMem
      rw [List.mem_singleton.1 hMem]
      exact hp _ hc
  | seq _ _ hx hy =>
      exact List.forall_mem_append.2 ⟨hx hp.1, hy hp.2⟩
  | left _ hx => exact hx hp.1
  | right _ hx => exact hx hp.2
  | starNil => simp
  | starCons _ _ hx hy => exact List.forall_mem_append.2 ⟨hx hp, hy hp⟩

end ValueMix.Pattern
