import Mathlib
import ValueMix.Text.Blank
import ValueMix.Text.Digits
import ValueMix.Text.Pieces

/-!
# Trimming and cutting

Trimming takes off blanks and nothing else, and blanks put around a text do not
matter to it. Cutting at a separator is undone by joining with it.

## Main results

* `padded_trim` — a text is what `trim` leaves, between blanks.
* `trim_padded` — blanks around a text do not matter to `trim`.
* `before_append`, `after_append` — a cut at the first separator.
* `trim_append_cons` — a character that is no blank stops trimming.
* `intercalate_pieces`, `pieces_intercalate` — cutting into pieces and
  joining them are inverse.
* `forall_mem_pieces_padded` — blanks around a text go to its outer pieces.
-/

namespace ValueMix.Text

/-! ## Blanks -/

/-- A text of blanks only. -/
def Blank (cs : List Char) : Prop := ∀ c ∈ cs, isBlank c = true

theorem blank_nil : Blank [] := by
  intro c hc
  cases hc

theorem Blank.not_mem {cs : List Char} (h : Blank cs) {c : Char}
    (hc : isBlank c = false) : c ∉ cs := by
  intro hMem
  rw [h c hMem] at hc
  cases hc

theorem blank_singleton_space : Blank [' '] := by
  intro c hc
  rw [List.mem_singleton.1 hc]
  decide

/-- A text with blanks around it. -/
def Padded (cs padded : List Char) : Prop :=
  ∃ l r, Blank l ∧ Blank r ∧ padded = l ++ cs ++ r

theorem Padded.append_left {l cs padded : List Char} (h : Padded cs padded)
    (hl : Blank l) : Padded cs (l ++ padded) := by
  obtain ⟨l', r, hl', hr, rfl⟩ := h
  exact ⟨l ++ l', r, List.forall_mem_append.2 ⟨hl, hl'⟩, hr, by simp⟩

theorem Padded.forall_mem {P : Char → Prop} {cs padded : List Char}
    (h : Padded cs padded) (hBlank : ∀ ch, isBlank ch = true → P ch)
    (hText : ∀ ch ∈ cs, P ch) : ∀ ch ∈ padded, P ch := by
  obtain ⟨l, r, hl, hr, rfl⟩ := h
  rw [List.forall_mem_append, List.forall_mem_append]
  exact ⟨⟨fun ch hch => hBlank ch (hl ch hch), hText⟩,
    fun ch hch => hBlank ch (hr ch hch)⟩

theorem Padded.not_mem {cs padded : List Char} (h : Padded cs padded) {c : Char}
    (hc : c ∉ padded) : c ∉ cs := by
  obtain ⟨l, r, -, -, rfl⟩ := h
  exact fun hMem => hc (by simp [hMem])

/-- A text that neither begins nor ends with a blank. -/
def Tight (cs : List Char) : Prop :=
  (∀ c, cs.head? = some c → isBlank c = false) ∧
    ∀ c, cs.getLast? = some c → isBlank c = false

theorem Tight.of_forall {cs : List Char} (h : ∀ c ∈ cs, isBlank c = false) :
    Tight cs := by
  constructor
  · intro c hc
    exact h c (List.mem_of_mem_head? hc)
  · intro c hc
    exact h c (List.mem_of_getLast? hc)

/-- The ends of a text are the ends of its outer parts. -/
theorem Tight.append {xs ys zs : List Char} (hx : Tight xs) (hz : Tight zs)
    (hxne : xs ≠ []) (hzne : zs ≠ []) : Tight (xs ++ ys ++ zs) := by
  constructor
  · intro c hc
    rw [List.append_assoc, List.head?_append_of_ne_nil _ hxne] at hc
    exact hx.1 c hc
  · intro c hc
    rw [List.getLast?_append_of_ne_nil _ hzne] at hc
    exact hz.2 c hc

/-! ## Trimming -/

theorem trimEnd_eq (cs : List Char) : trimEnd cs = cs.rdropWhile isBlank := rfl

theorem trim_of_tight {cs : List Char} (h : Tight cs) : trim cs = cs := by
  have hStart : trimStart cs = cs := by
    cases cs with
    | nil => rfl
    | cons c rest =>
        rw [trimStart, List.dropWhile_cons_of_neg]
        rw [h.1 c rfl]
        exact Bool.false_ne_true
  rw [trim, hStart, trimEnd_eq, List.rdropWhile_eq_self_iff]
  intro hne
  rw [h.2 _ (List.getLast?_eq_some_getLast hne)]
  exact Bool.false_ne_true

/-- Blanks around a text do not matter. -/
theorem trim_padded {l r : List Char} (hl : Blank l) (hr : Blank r)
    (cs : List Char) : trim (l ++ cs ++ r) = trim cs := by
  have hLeft : trimStart (l ++ cs ++ r) = trimStart (cs ++ r) := by
    rw [trimStart, List.append_assoc, List.dropWhile_append_of_pos hl]
    rfl
  have hRight : ∀ xs : List Char, trimEnd (xs ++ r) = trimEnd xs := by
    intro xs
    rw [trimEnd, List.reverse_append, List.dropWhile_append_of_pos]
    · rfl
    · intro c hc
      exact hr c (List.mem_reverse.1 hc)
  rw [trim, hLeft]
  by_cases hBlank : Blank cs
  · have hAll : trimStart (cs ++ r) = [] := by
      refine List.dropWhile_eq_nil_iff.2 fun c hc => ?_
      rcases List.mem_append.1 hc with h | h
      · exact hBlank c h
      · exact hr c h
    have hOnly : trimStart cs = [] := List.dropWhile_eq_nil_iff.2 hBlank
    rw [hAll, trim, hOnly]
  · have hDrop : trimStart (cs ++ r) = trimStart cs ++ r := by
      rw [trimStart, trimStart, List.dropWhile_append, if_neg]
      rw [List.isEmpty_iff, List.dropWhile_eq_nil_iff]
      exact hBlank
    rw [hDrop, hRight, trim]

/-- A text without blanks at its ends, between blanks. -/
theorem Padded.trim_eq {cs padded : List Char} (h : Padded cs padded)
    (hTight : Tight cs) : trim padded = cs := by
  obtain ⟨l, r, hl, hr, rfl⟩ := h
  rw [trim_padded hl hr, trim_of_tight hTight]

/-- A text is what `trim` leaves, between blanks. -/
theorem padded_trim (cs : List Char) : Padded (trim cs) cs := by
  refine ⟨cs.takeWhile isBlank, (trimStart cs).rtakeWhile isBlank, ?_, ?_, ?_⟩
  · intro c hc
    exact List.mem_takeWhile_imp hc
  · intro c hc
    exact List.mem_rtakeWhile_imp hc
  · rw [trim, trimEnd_eq, List.append_assoc, List.rdropWhile_append_rtakeWhile]
    exact List.takeWhile_append_dropWhile.symm

/-- A character that is no blank stops trimming from the left. -/
theorem trimStart_append_cons {b : Char} (hb : isBlank b = false)
    (xs ys : List Char) :
    trimStart (xs ++ b :: ys) = trimStart xs ++ b :: ys := by
  induction xs with
  | nil => simp [trimStart, hb]
  | cons x xs ih =>
      rw [trimStart] at ih
      rw [trimStart, trimStart, List.cons_append, List.dropWhile_cons,
        List.dropWhile_cons, ih]
      split <;> rfl

/-- A character that is no blank stops trimming from the right. -/
theorem trimEnd_append_cons {b : Char} (hb : isBlank b = false)
    (xs ys : List Char) :
    trimEnd (xs ++ b :: ys) = xs ++ b :: trimEnd ys := by
  have hStart := trimStart_append_cons hb ys.reverse xs.reverse
  rw [trimStart, trimStart] at hStart
  rw [trimEnd, trimEnd, List.reverse_append, List.reverse_cons,
    List.append_assoc, List.singleton_append, hStart, List.reverse_append,
    List.reverse_cons, List.reverse_reverse, List.append_assoc]
  rfl

theorem trim_append_cons {b : Char} (hb : isBlank b = false)
    (xs ys : List Char) :
    trim (xs ++ b :: ys) = trimStart xs ++ b :: trimEnd ys := by
  rw [trim, trimStart_append_cons hb, trimEnd_append_cons hb]

theorem exists_blank_append_trimStart (cs : List Char) :
    ∃ l, Blank l ∧ l ++ trimStart cs = cs := by
  refine ⟨cs.takeWhile isBlank, ?_, List.takeWhile_append_dropWhile⟩
  intro c hc
  exact List.mem_takeWhile_imp hc

theorem padded_trimStart (cs : List Char) : Padded (trimStart cs) cs := by
  obtain ⟨l, hl, hText⟩ := exists_blank_append_trimStart cs
  exact ⟨l, [], hl, blank_nil, by rw [hText, List.append_nil]⟩

theorem padded_trimEnd (cs : List Char) : Padded (trimEnd cs) cs := by
  refine ⟨[], cs.rtakeWhile isBlank, blank_nil, ?_, ?_⟩
  · intro c hc
    exact List.mem_rtakeWhile_imp hc
  · exact (List.rdropWhile_append_rtakeWhile).symm

theorem trim_eq_nil_iff {cs : List Char} : trim cs = [] ↔ Blank cs := by
  constructor
  · intro h
    obtain ⟨l, r, hl, hr, hcs⟩ := padded_trim cs
    rw [h, List.append_nil] at hcs
    rw [hcs]
    intro c hc
    rcases List.mem_append.1 hc with hc | hc
    · exact hl c hc
    · exact hr c hc
  · intro h
    have hStart : trimStart cs = [] := List.dropWhile_eq_nil_iff.2 h
    rw [trim, hStart]
    rfl

theorem isEmpty_trim_iff {cs : List Char} : (trim cs).isEmpty ↔ Blank cs :=
  List.isEmpty_iff.trans trim_eq_nil_iff

/-! ## Cutting at the first separator -/

section Cutting

variable {sep : Char}

theorem before_append {xs : List Char} (h : sep ∉ xs) (ys : List Char) :
    before sep (xs ++ sep :: ys) = xs := by
  have hAll : ∀ c ∈ xs, (c != sep) = true := by
    intro c hc
    rw [bne_iff_ne]
    exact fun heq => h (heq ▸ hc)
  rw [before, List.takeWhile_append_of_pos hAll, List.takeWhile_cons_of_neg,
    List.append_nil]
  simp

theorem after_append {xs : List Char} (h : sep ∉ xs) (ys : List Char) :
    after sep (xs ++ sep :: ys) = ys := by
  have hAll : ∀ c ∈ xs, (c != sep) = true := by
    intro c hc
    rw [bne_iff_ne]
    exact fun heq => h (heq ▸ hc)
  rw [after, List.dropWhile_append_of_pos hAll, List.dropWhile_cons_of_neg,
    List.tail_cons]
  simp

theorem before_of_not_mem {xs : List Char} (h : sep ∉ xs) :
    before sep xs = xs := by
  rw [before, List.takeWhile_eq_self_iff]
  intro c hc
  rw [bne_iff_ne]
  exact fun heq => h (heq ▸ hc)

theorem after_of_not_mem {xs : List Char} (h : sep ∉ xs) :
    after sep xs = [] := by
  have hDrop : xs.dropWhile (· != sep) = [] := by
    refine List.dropWhile_eq_nil_iff.2 fun c hc => ?_
    rw [bne_iff_ne]
    exact fun heq => h (heq ▸ hc)
  rw [after, hDrop, List.tail_nil]

/-- Blanks in front do not change what stands in front of the first separator
but for themselves. -/
theorem trim_before_trimStart (hsep : isBlank sep = false) (cs : List Char) :
    trim (before sep (trimStart cs)) = trim (before sep cs) := by
  obtain ⟨l, hl, hText⟩ := exists_blank_append_trimStart cs
  have hBefore : before sep cs = l ++ before sep (trimStart cs) := by
    conv_lhs => rw [← hText]
    refine List.takeWhile_append_of_pos fun c hc => ?_
    rw [bne_iff_ne]
    exact fun heq => hl.not_mem hsep (heq ▸ hc)
  have hTrim := trim_padded hl blank_nil (before sep (trimStart cs))
  rw [List.append_nil] at hTrim
  rw [hBefore, hTrim]

theorem not_mem_before (sep : Char) (cs : List Char) :
    sep ∉ before sep cs := by
  intro h
  have := List.mem_takeWhile_imp h
  simp at this

/-! ## Pieces -/

theorem pieces_eq_splitOn (sep : Char) (cs : List Char) :
    pieces sep cs = cs.splitOn sep := by
  induction cs with
  | nil => rfl
  | cons c rest ih =>
      rw [pieces, List.splitOn_cons_eq_if_modifyHead, ← ih]
      by_cases hc : c = sep
      · rw [if_pos hc, if_pos (by simpa using hc)]
      · rw [if_neg hc, if_neg (by simpa using hc)]
        have hne := pieces_ne_nil sep rest
        cases hRest : pieces sep rest with
        | nil => exact absurd hRest hne
        | cons piece others => rfl

/-- A separator stands in front of every text but the first. -/
theorem intercalate_cons (sep p : List Char) (ps : List (List Char)) :
    sep.intercalate (p :: ps) = p ++ (ps.map (sep ++ ·)).flatten := by
  induction ps generalizing p with
  | nil => simp
  | cons q ps ih =>
      rw [List.intercalate_cons_cons, ih, List.map_cons, List.flatten_cons,
        List.append_assoc, List.append_assoc]

/-- The characters of joined texts. -/
theorem mem_of_mem_intercalate {ps : List (List Char)} {c : Char}
    (h : c ∈ [sep].intercalate ps) : c = sep ∨ ∃ p ∈ ps, c ∈ p := by
  induction ps with
  | nil => cases h
  | cons p rest ih =>
      by_cases hRest : rest = []
      · rw [hRest, List.intercalate_singleton] at h
        exact Or.inr ⟨p, by simp, h⟩
      · rw [List.intercalate_cons_of_ne_nil hRest, List.append_assoc,
          List.mem_append, List.singleton_append, List.mem_cons] at h
        rcases h with hHead | rfl | hTail
        · exact Or.inr ⟨p, by simp, hHead⟩
        · exact Or.inl rfl
        · rcases ih hTail with rfl | ⟨p', hp', hc⟩
          · exact Or.inl rfl
          · exact Or.inr ⟨p', by simp [hp'], hc⟩

theorem not_mem_intercalate {ps : List (List Char)} {c : Char} (hc : c ≠ sep)
    (h : ∀ p ∈ ps, c ∉ p) : c ∉ [sep].intercalate ps := by
  intro hMem
  rcases mem_of_mem_intercalate hMem with heq | ⟨p, hp, hMem⟩
  · exact hc heq
  · exact h p hp hMem

theorem mem_intercalate {ps : List (List Char)} {p : List Char} {c : Char}
    (hp : p ∈ ps) (hc : c ∈ p) : c ∈ [sep].intercalate ps := by
  induction ps with
  | nil => cases hp
  | cons p' rest ih =>
      by_cases hRest : rest = []
      · rw [hRest, List.mem_singleton] at hp
        rw [hRest, List.intercalate_singleton, ← hp]
        exact hc
      · rw [List.intercalate_cons_of_ne_nil hRest, List.mem_append,
          List.mem_append]
        rcases List.mem_cons.1 hp with rfl | hp
        · exact Or.inl (Or.inl hc)
        · exact Or.inr (ih hp)

/-- Joining the pieces gives the text back. -/
theorem intercalate_pieces (sep : Char) (cs : List Char) :
    [sep].intercalate (pieces sep cs) = cs := by
  rw [pieces_eq_splitOn]
  exact List.intercalate_splitOn sep

/-- Texts without the separator are the pieces of the text joined from
them. -/
theorem pieces_intercalate {ps : List (List Char)} (hne : ps ≠ [])
    (h : ∀ p ∈ ps, sep ∉ p) : pieces sep ([sep].intercalate ps) = ps := by
  rw [pieces_eq_splitOn]
  exact List.splitOn_intercalate sep h hne

/-- A character that is no separator belongs to the first piece. -/
theorem pieces_cons_of_ne {c : Char} (hc : c ≠ sep) {cs p : List Char}
    {ps : List (List Char)} (h : pieces sep cs = p :: ps) :
    pieces sep (c :: cs) = (c :: p) :: ps := by
  rw [pieces, if_neg hc, h]

/-- A text without the separator is a single piece. -/
theorem pieces_of_not_mem {cs : List Char} (h : sep ∉ cs) :
    pieces sep cs = [cs] := by
  have hOne : pieces sep ([sep].intercalate [cs]) = [cs] :=
    pieces_intercalate (by simp) fun p hp => (List.mem_singleton.1 hp).symm ▸ h
  rwa [List.intercalate_singleton] at hOne

/-- A text without the separator in front goes to the first piece. -/
theorem pieces_append_left {xs : List Char} (hxs : sep ∉ xs) (cs : List Char) :
    ∃ p ps, pieces sep cs = p :: ps ∧
      pieces sep (xs ++ cs) = (xs ++ p) :: ps := by
  induction xs with
  | nil =>
      obtain ⟨p, ps, h⟩ := List.exists_cons_of_ne_nil (pieces_ne_nil sep cs)
      exact ⟨p, ps, h, h⟩
  | cons c xs ih =>
      rw [List.mem_cons, not_or] at hxs
      obtain ⟨p, ps, hOld, hNew⟩ := ih hxs.2
      exact ⟨p, ps, hOld, pieces_cons_of_ne (Ne.symm hxs.1) hNew⟩

/-- A text without the separator behind goes to the last piece. -/
theorem pieces_append_right {xs : List Char} (hxs : sep ∉ xs) (cs : List Char) :
    ∃ ps p, pieces sep cs = ps ++ [p] ∧
      pieces sep (cs ++ xs) = ps ++ [p ++ xs] := by
  induction cs with
  | nil => exact ⟨[], [], rfl, pieces_of_not_mem hxs⟩
  | cons c cs ih =>
      obtain ⟨ps, p, hOld, hNew⟩ := ih
      by_cases hc : c = sep
      · refine ⟨[] :: ps, p, ?_, ?_⟩
        · rw [pieces, if_pos hc, hOld, List.cons_append]
        · rw [List.cons_append, pieces, if_pos hc, hNew, List.cons_append]
      · cases ps with
        | nil =>
            exact ⟨[], c :: p, pieces_cons_of_ne hc hOld,
              pieces_cons_of_ne hc hNew⟩
        | cons q ps =>
            exact ⟨(c :: q) :: ps, p, pieces_cons_of_ne hc hOld,
              pieces_cons_of_ne hc hNew⟩

/-- What blanks around a piece do not matter to, blanks around the whole text
do not matter to either. -/
theorem forall_mem_pieces_padded {P : List Char → Prop}
    (hP : ∀ p q, Padded p q → (P q ↔ P p)) (hsep : isBlank sep = false)
    {cs padded : List Char} (h : Padded cs padded) :
    (∀ p ∈ pieces sep padded, P p) ↔ ∀ p ∈ pieces sep cs, P p := by
  obtain ⟨l, r, hl, hr, rfl⟩ := h
  have hLeft : ∀ p, Padded p (l ++ p) :=
    fun p => ⟨l, [], hl, blank_nil, (List.append_nil _).symm⟩
  have hRight : ∀ p, Padded p (p ++ r) := fun p => ⟨[], r, blank_nil, hr, rfl⟩
  obtain ⟨ps, p, hOld, hNew⟩ := pieces_append_right (hr.not_mem hsep) (l ++ cs)
  obtain ⟨q, qs, hFirst, hWhole⟩ := pieces_append_left (hl.not_mem hsep) cs
  calc (∀ x ∈ pieces sep (l ++ cs ++ r), P x)
      ↔ ∀ x ∈ pieces sep (l ++ cs), P x := by
        rw [hNew, hOld, List.forall_mem_append, List.forall_mem_append,
          List.forall_mem_singleton, List.forall_mem_singleton,
          hP _ _ (hRight p)]
    _ ↔ ∀ x ∈ pieces sep cs, P x := by
        rw [hWhole, hFirst, List.forall_mem_cons, List.forall_mem_cons,
          hP _ _ (hLeft q)]

end Cutting

end ValueMix.Text
