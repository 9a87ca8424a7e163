import Mathlib
import ValueMix.Json.Basic
import ValueMix.Proofs.JsonSpelling

/-!
# Written JSON is read back

Both forms of a value are texts of its tokens: the laid out form only adds
blanks between them. An escaped character is one of the ways to write that
character in a string, and a number stands in front of a comma, a bracket, a
brace or a blank, so it ends where its literal does. Hence both forms are read
as the value itself, if its numbers are number literals.

## Main results

* `body_escaped` — escaping writes every character so that it is read back.
* `fits_compact`, `fits_laidOut` — both forms are texts of the same tokens.
* `read?_render` — what is written is read back.
* `newline_not_mem_compact` — the compact form is a single line.
-/

namespace ValueMix.Json

open JsonValue

/-! ## The values written -/

mutual

/-- The value that is written. -/
def value : Json → JsonValue
  | .null => .null
  | .number literal => .number literal
  | .text cs => .text cs
  | .array items => .array (itemValues items)
  | .object members => .object (memberValues members)

def itemValues : List Json → List JsonValue
  | [] => []
  | v :: rest => value v :: itemValues rest

def memberValues : List (List Char × Json) → List (List Char × JsonValue)
  | [] => []
  | (k, v) :: rest => (k, value v) :: memberValues rest

end

theorem itemValues_eq_map (items : List Json) :
    itemValues items = items.map value := by
  induction items with
  | nil => rfl
  | cons v rest ih => rw [itemValues, ih, List.map_cons]

mutual

/-- Whether all numbers in a value are number literals. -/
def WellFormed : Json → Prop
  | .null => True
  | .number literal => numberPattern.Matches literal
  | .text _ => True
  | .array items => WellFormedItems items
  | .object members => WellFormedMembers members

def WellFormedItems : List Json → Prop
  | [] => True
  | v :: rest => WellFormed v ∧ WellFormedItems rest

def WellFormedMembers : List (List Char × Json) → Prop
  | [] => True
  | (_, v) :: rest => WellFormed v ∧ WellFormedMembers rest

end

theorem wellFormedItems_of_forall {items : List Json}
    (h : ∀ v ∈ items, WellFormed v) : WellFormedItems items := by
  induction items with
  | nil => trivial
  | cons v rest ih =>
      obtain ⟨hv, hRest⟩ := List.forall_mem_cons.1 h
      exact ⟨hv, ih hRest⟩

/-! ## Strings -/

/-- The digits of an escaped control character write its number. -/
theorem codeUnit?_control : ∀ n < 32,
    codeUnit? ['0', '0', hexDigit (n / 16), hexDigit (n % 16)] = some n := by
  decide

/-- An escaped character is written so that it is read back. -/
theorem body_escaped_singleton (c : Char) : Body [c] (escaped c) := by
  unfold escaped
  split_ifs with hQuote hBackslash hLine hReturn hTab hBack hFeed hControl
  · exact .short (by rw [hQuote]; rfl) .nil
  · exact .short (by rw [hBackslash]; rfl) .nil
  · exact .short (by rw [hLine]; rfl) .nil
  · exact .short (by rw [hReturn]; rfl) .nil
  · exact .short (by rw [hTab]; rfl) .nil
  · exact .short (by rw [hBack]; rfl) .nil
  · exact .short (by rw [hFeed]; rfl) .nil
  · have hUnit := codeUnit?_control c.toNat hControl
    simpa using Body.unit hUnit .nil
  · exact .plain (not_lt.1 hControl) hQuote hBackslash .nil

theorem body_escaped (cs : List Char) : Body cs (cs.flatMap escaped) := by
  induction cs with
  | nil => exact .nil
  | cons c cs ih =>
      rw [List.flatMap_cons]
      exact (body_escaped_singleton c).append ih

/-! ## Texts of tokens, part by part -/

/-- A text writes some tokens if it does so in front of any other text that
does not go on with a word. -/
def Fits (ts : List JsonToken) (xs : List Char) : Prop :=
  ∀ ⦃more cs⦄, Spelled more cs → NoWord cs → Spelled (ts ++ more) (xs ++ cs)

/-- A text that writes some tokens and can stand behind a word. -/
structure Tail (ts : List JsonToken) (xs : List Char) : Prop where
  fits : Fits ts xs
  noWord : NoWord xs

theorem noWord_cons {c : Char} (h : isWordChar c = false) (cs : List Char) :
    NoWord (c :: cs) := by
  rintro d ⟨⟩
  exact h

theorem noWord_append {xs ys : List Char} (hx : NoWord xs) (hy : NoWord ys) :
    NoWord (xs ++ ys) := by
  cases xs with
  | nil => exact hy
  | cons c xs => exact noWord_cons (hx c rfl) (xs ++ ys)

section Parts

variable {ts us : List JsonToken} {xs ys : List Char}

theorem Fits.append (hx : Fits ts xs) (hy : Tail us ys) :
    Fits (ts ++ us) (xs ++ ys) := by
  intro more cs h hEnd
  rw [List.append_assoc, List.append_assoc]
  exact hx (hy.fits h hEnd) (noWord_append hy.noWord hEnd)

theorem Tail.append (hx : Tail ts xs) (hy : Tail us ys) :
    Tail (ts ++ us) (xs ++ ys) :=
  ⟨hx.fits.append hy, noWord_append hx.noWord hy.noWord⟩

theorem tail_nil : Tail [] [] := ⟨fun _ _ h _ => h, nofun⟩

theorem Fits.mark {c : Char} {t : JsonToken} (h : Fits ts xs)
    (hc : mark? c = some t) :
    Tail (t :: ts) (c :: xs) :=
  ⟨fun _ _ hMore hEnd => .mark hc (h hMore hEnd),
    noWord_cons (mark?_spec hc).2.2 xs⟩

theorem Fits.space {c : Char} (h : Fits ts xs) (hc : isSpace c = true) :
    Fits ts (c :: xs) :=
  fun _ _ hMore hEnd => .blank hc (h hMore hEnd)

theorem Fits.newLine (h : Fits ts xs) (level : ℕ) :
    Tail ts (newLine level ++ xs) := by
  have hSpaces : ∀ n, Fits ts (List.replicate n ' ' ++ xs) := by
    intro n
    induction n with
    | zero => exact h
    | succ n ih => exact ih.space rfl
  exact ⟨(hSpaces (2 * level)).space rfl, noWord_cons (by decide) _⟩

theorem Fits.quoted (h : Fits ts xs) (chars : List Char) :
    Fits (.text chars :: ts) (quoted chars ++ xs) := by
  intro more cs hMore hEnd
  have hText := Spelled.text (body_escaped chars) (h hMore hEnd)
  simpa [Json.quoted] using hText

theorem fits_word {run : List Char} {t : JsonToken} (h : word? run = some t) :
    Fits [t] run :=
  fun _ _ hMore hEnd => .word h hEnd hMore

theorem fits_quoted (chars : List Char) :
    Fits [.text chars] (quoted chars) := by
  have hText := tail_nil.fits.quoted chars
  rwa [List.append_nil] at hText

end Parts

/-- Number literals are none of the three words. -/
theorem word?_of_matches {literal : List Char}
    (h : numberPattern.Matches literal) :
    word? literal = some (.number literal) := by
  have hAccepts := Pattern.accepts_iff_matches.2 h
  unfold word?
  rw [if_neg, if_neg, if_neg, if_pos hAccepts] <;> rintro rfl <;>
    revert hAccepts <;> decide

theorem tail_rightBracket : Tail [.rightBracket] [']'] := tail_nil.fits.mark rfl

theorem tail_rightBrace : Tail [.rightBrace] ['\x7d'] := tail_nil.fits.mark rfl

/-! ## Compact form -/

/-- Items that follow another one, each behind a comma. -/
def compactMore (items : List Json) : List Char :=
  items.flatMap fun v => ',' :: compact v

theorem compactItems_cons (v : Json) (rest : List Json) :
    compactItems (v :: rest) = compact v ++ compactMore rest := by
  induction rest generalizing v with
  | nil => simp [compactItems, compactMore]
  | cons w rest ih =>
      rw [compactItems, ih]
      · simp [compactMore]
      · nofun

/-- Members that follow another one, each behind a comma. -/
def compactMoreMembers (members : List (List Char × Json)) : List Char :=
  members.flatMap fun m => ',' :: (quoted m.1 ++ ':' :: compact m.2)

theorem compactMembers_cons (k : List Char) (v : Json)
    (rest : List (List Char × Json)) :
    compactMembers ((k, v) :: rest) =
      quoted k ++ ':' :: (compact v ++ compactMoreMembers rest) := by
  induction rest generalizing k v with
  | nil => simp [compactMembers, compactMoreMembers]
  | cons m rest ih =>
      rw [compactMembers, ih]
      · simp [compactMoreMembers]
      · nofun

mutual

/-- The compact form of a value is a text of its tokens. -/
theorem fits_compact :
    ∀ v : Json, v.WellFormed → Fits v.value.tokens (compact v)
  | .null, _ => fits_word rfl
  | .number _, h => fits_word (word?_of_matches h)
  | .text cs, _ => fits_quoted cs
  | .array [], _ => (tail_rightBracket.fits.mark rfl).fits
  | .array (v :: rest), h => by
      rw [compact, compactItems_cons, List.append_assoc]
      have hRest := (tail_compactMore rest h.2).append tail_rightBracket
      exact (((fits_compact v h.1).append hRest).mark rfl).fits
  | .object [], _ => (tail_rightBrace.fits.mark rfl).fits
  | .object ((k, v) :: rest), h => by
      rw [compact, compactMembers_cons, List.append_assoc, List.cons_append,
        List.append_assoc]
      have hRest := (tail_compactMoreMembers rest h.2).append tail_rightBrace
      have hValue := ((fits_compact v h.1).append hRest).mark (c := ':') rfl
      exact ((hValue.fits.quoted k).mark rfl).fits

theorem tail_compactMore : ∀ items : List Json, WellFormedItems items →
    Tail (moreItems (itemValues items)) (compactMore items)
  | [], _ => tail_nil
  | v :: rest, h =>
      ((fits_compact v h.1).append (tail_compactMore rest h.2)).mark rfl

theorem tail_compactMoreMembers : ∀ members : List (List Char × Json),
    WellFormedMembers members →
      Tail (moreMembers (memberValues members)) (compactMoreMembers members)
  | [], _ => tail_nil
  | (k, v) :: rest, h => by
      have hRest :=
        (fits_compact v h.1).append (tail_compactMoreMembers rest h.2)
      have hMember :=
        (((hRest.mark (c := ':') rfl).fits).quoted k).mark (c := ',') rfl
      simpa [compactMoreMembers, memberValues, moreMembers] using hMember

end

/-! ## Laid out form -/

mutual

/-- The laid out form of a value is a text of its tokens. -/
theorem fits_laidOut (level : ℕ) : ∀ v : Json, v.WellFormed →
    Fits v.value.tokens (laidOut level v)
  | .null, _ => fits_word rfl
  | .number _, h => fits_word (word?_of_matches h)
  | .text cs, _ => fits_quoted cs
  | .array [], _ => (tail_rightBracket.fits.mark rfl).fits
  | .array (v :: rest), h => by
      rw [laidOut]
      have hRest := (tail_laidOutItems (level + 1) rest h.2).append
        (tail_rightBracket.fits.newLine level)
      have hItems := (fits_laidOut (level + 1) v h.1).append hRest
      exact ((hItems.newLine (level + 1)).fits.mark rfl).fits
  | .object [], _ => (tail_rightBrace.fits.mark rfl).fits
  | .object ((k, v) :: rest), h => by
      rw [laidOut]
      have hRest := (tail_laidOutMembers (level + 1) rest h.2).append
        (tail_rightBrace.fits.newLine level)
      have hValue := (fits_laidOut (level + 1) v h.1).append hRest
      have hMembers :=
        ((hValue.space (c := ' ') rfl).mark (c := ':') rfl).fits.quoted k
      exact ((hMembers.newLine (level + 1)).fits.mark rfl).fits

theorem tail_laidOutItems (level : ℕ) :
    ∀ items : List Json, WellFormedItems items →
      Tail (moreItems (itemValues items)) (laidOutItems level items)
  | [], _ => tail_nil
  | v :: rest, h => by
      have hRest :=
        (fits_laidOut level v h.1).append (tail_laidOutItems level rest h.2)
      exact (hRest.newLine level).fits.mark rfl

theorem tail_laidOutMembers (level : ℕ) : ∀ members : List (List Char × Json),
    WellFormedMembers members →
      Tail (moreMembers (memberValues members)) (laidOutMembers level members)
  | [], _ => tail_nil
  | (k, v) :: rest, h => by
      have hRest :=
        (fits_laidOut level v h.1).append (tail_laidOutMembers level rest h.2)
      have hMember :=
        ((hRest.space (c := ' ') rfl).mark (c := ':') rfl).fits.quoted k
      exact (hMember.newLine level).fits.mark rfl

end

/-! ## Reading back -/

/-- Either form is a text of the tokens of the value. -/
theorem spelled_render {v : Json} (h : v.WellFormed) (pretty : Bool) :
    Spelled v.value.tokens (v.render pretty).toList := by
  have hFits : Fits v.value.tokens (v.render pretty).toList := by
    rw [render, String.toList_ofList]
    cases pretty
    · exact fits_compact v h
    · exact fits_laidOut 0 v h
  simpa using hFits .nil nofun

/-- What is written is read back, in either form. -/
theorem read?_render {v : Json} (h : v.WellFormed) (pretty : Bool) :
    read? (v.render pretty).toList = some v.value :=
  read?_eq_some_iff.2 (spelled_render h pretty)

/-! ## A single line -/

/-- A text without control characters. -/
def Visible (cs : List Char) : Prop := ∀ c ∈ cs, 32 ≤ c.toNat

theorem visible_append {xs ys : List Char} (hx : Visible xs) (hy : Visible ys) :
    Visible (xs ++ ys) :=
  List.forall_mem_append.2 ⟨hx, hy⟩

theorem visible_cons {c : Char} {cs : List Char} (hc : 32 ≤ c.toNat)
    (h : Visible cs) :
    Visible (c :: cs) :=
  List.forall_mem_cons.2 ⟨hc, h⟩

theorem visible_nil : Visible [] := nofun

theorem visible_hexDigit : ∀ n < 16, 32 ≤ (hexDigit n).toNat := by
  decide

theorem visible_escaped (c : Char) : Visible (escaped c) := by
  unfold escaped
  split_ifs with _ _ _ _ _ _ _ hControl
  · exact visible_cons (by decide) (visible_cons (by decide) visible_nil)
  · exact visible_cons (by decide) (visible_cons (by decide) visible_nil)
  · exact visible_cons (by decide) (visible_cons (by decide) visible_nil)
  · exact visible_cons (by decide) (visible_cons (by decide) visible_nil)
  · exact visible_cons (by decide) (visible_cons (by decide) visible_nil)
  · exact visible_cons (by decide) (visible_cons (by decide) visible_nil)
  · exact visible_cons (by decide) (visible_cons (by decide) visible_nil)
  · refine visible_cons (by decide) (visible_cons (by decide)
      (visible_cons (by decide) (visible_cons (by decide) ?_)))
    exact visible_cons (visible_hexDigit _ (by omega))
      (visible_cons (visible_hexDigit _ (by omega)) visible_nil)
  · exact visible_cons (not_lt.1 hControl) visible_nil

theorem visible_quoted (cs : List Char) : Visible (quoted cs) := by
  refine visible_cons (by decide)
    (visible_append ?_ (visible_cons (by decide) visible_nil))
  intro c hc
  obtain ⟨d, -, hEscaped⟩ := List.mem_flatMap.1 hc
  exact visible_escaped d c hEscaped

theorem visible_of_matches {literal : List Char}
    (h : numberPattern.Matches literal) :
    Visible literal := by
  have hRanges : ∀ r ∈ wordSet.ranges, 32 ≤ r.1 := by decide
  intro c hc
  have hWord : isWordChar c = true := h.forall_mem within_numberPattern c hc
  simp only [isWordChar, CharSet.contains, List.any_eq_true, Bool.and_eq_true,
    decide_eq_true_eq, show wordSet.negated = false from rfl,
    Bool.bne_false] at hWord
  obtain ⟨r, hr, hLow, -⟩ := hWord
  exact (hRanges r hr).trans hLow

mutual

/-- The compact form has no control characters. -/
theorem visible_compact : ∀ v : Json, v.WellFormed → Visible (compact v)
  | .null, _ => by
      refine visible_cons ?_
        (visible_cons ?_ (visible_cons ?_ (visible_cons ?_ visible_nil)))
      all_goals decide
  | .number _, h => visible_of_matches h
  | .text cs, _ => visible_quoted cs
  | .array items, h => by
      rw [compact]
      exact visible_cons (by decide)
        (visible_append (visible_compactItems items h)
          (visible_cons (by decide) visible_nil))
  | .object members, h => by
      rw [compact]
      exact visible_cons (by decide)
        (visible_append (visible_compactMembers members h)
          (visible_cons (by decide) visible_nil))

theorem visible_compactItems : ∀ items : List Json, WellFormedItems items →
    Visible (compactItems items)
  | [], _ => visible_nil
  | [v], h => visible_compact v h.1
  | v :: w :: rest, h => by
      rw [compactItems]
      · exact visible_append (visible_compact v h.1)
          (visible_cons (by decide) (visible_compactItems (w :: rest) h.2))
      · nofun

theorem visible_compactMembers : ∀ members : List (List Char × Json),
    WellFormedMembers members → Visible (compactMembers members)
  | [], _ => visible_nil
  | [(k, v)], h => by
      rw [compactMembers]
      exact visible_append (visible_quoted k)
        (visible_cons (by decide) (visible_compact v h.1))
  | (k, v) :: m :: rest, h => by
      rw [compactMembers]
      · exact visible_append (visible_quoted k) (visible_cons (by decide)
          (visible_append (visible_compact v h.1)
            (visible_cons (by decide)
              (visible_compactMembers (m :: rest) h.2))))
      · nofun

end

theorem newline_not_mem_compact {v : Json} (h : v.WellFormed) :
    '\n' ∉ (v.render false).toList := by
  intro hMem
  rw [render, if_neg Bool.false_ne_true, String.toList_ofList] at hMem
  exact absurd (visible_compact v h '\n' hMem) (by decide)

end ValueMix.Json
