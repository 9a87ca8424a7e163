import Mathlib
import ValueMix.Proofs.Creation
import ValueMix.Proofs.Grammar

/-!
# Why reading fails

A piece is cut into a share and a token before the token is read. Cutting
does not depend on the codec, and all that it reports are malformations; what
the token step reports is the token. So an error tells which step refused the
piece.

## Main results

* `readEntry_eq` — reading a piece is cutting it and reading its token.
* `inForm_iff` — a piece has the form of an entry if it is cut and its token
  matches the pattern of tokens, whatever the value of the token.
* `stripBrackets?_eq_none_iff`, `eq_withoutBrackets` — which texts have a
  bracket on one side only, and what is left of the others.
* `readEntries_eq` — reading a whole text, in these terms.
* `ofEntries_error` — what building from entries reports.
-/

namespace ValueMix

open ValueMix.Number ValueMix.Text

/-! ## Errors of builders -/

/-- Whether an error is about weights and probabilities, as those of builders
with entries are. -/
def Error.aboutShares : Error → Bool
  | .invalidWeight _ => true
  | .invalidProbability _ => true
  | .overfull _ => true
  | .incomplete _ => true
  | .exhausted _ => true
  | _ => false

variable {α : Type}

theorem Entry.aboutShares_of_fault? {e : Entry α} {err : Error}
    (h : e.fault? = some err) : err.aboutShares = true := by
  obtain ⟨value, share⟩ := e
  cases share with
  | fixed p =>
      simp only [fault?] at h
      split at h
      · cases h
      · rw [← Option.some.inj h]
        rfl
  | weighted w =>
      simp only [fault?] at h
      split at h
      · cases h
      · rw [← Option.some.inj h]
        rfl

theorem Builder.holding_ne_nil {es : List (Entry α)} (h : es ≠ []) :
    ¬ ((holding es).fixed = [] ∧ (holding es).weighted = []) := by
  obtain ⟨⟨value, share⟩, rest, rfl⟩ := List.exists_cons_of_ne_nil h
  rintro ⟨hFixed, hWeighted⟩
  cases share with
  | fixed p => cases hFixed
  | weighted w => cases hWeighted

theorem Builder.aboutShares_of_createFault {b : Builder α} {e : Error}
    (h : b.CreateFault e) (hSome : ¬ (b.fixed = [] ∧ b.weighted = [])) :
    e.aboutShares = true := by
  cases e with
  | noEntries => exact absurd h hSome
  | overfull _ => rfl
  | incomplete _ => rfl
  | exhausted _ => rfl
  | invalidWeight _ => rfl
  | invalidProbability _ => rfl
  | malformed _ _ => exact absurd h id
  | unrecognizedToken _ _ => exact absurd h id
  | invalidPattern _ _ => exact absurd h id

/-- Entries, if there are any, are refused only for their shares. -/
theorem Distribution.ofEntries_error {es : List (Entry α)} (hne : es ≠ [])
    {e : Error} (h : ofEntries es = .error e) : e.aboutShares = true := by
  rw [ofEntries_eq] at h
  split at h
  · exact Builder.aboutShares_of_createFault
      ((Builder.create_eq_error_iff _ e).1 h) (Builder.holding_ne_nil hne)
  · rename_i err hFault
    obtain ⟨entry, -, hEntry⟩ := List.exists_of_findSome?_eq_some hFault
    rw [← Except.error.inj h]
    exact Entry.aboutShares_of_fault? hEntry

namespace Codec

/-! ## Cutting a piece -/

/-- The share and the token of a piece. -/
def cutEntry (input : String) (piece : List Char) :
    Except Error (Share × List Char) := do
  let entry := trim piece
  if entry.isEmpty then throw (.malformed input .emptyEntry)
  else if entry.contains ':' then
    let token := trim (after ':' entry)
    if token.isEmpty then
      throw (.malformed input (.missingValue (String.ofList entry)))
    else
      let share ← readShare input entry (before ':' entry)
      return (share, token)
  else return (.weighted 1, entry)

/-- The entry of a share and a token. -/
def readCut (c : Codec α) (cut : Share × List Char) : Except Error (Entry α) :=
  (c.readToken cut.2).map fun v => ⟨v, cut.1⟩

/-- Reading a piece is cutting it and reading its token. -/
theorem readEntry_eq (c : Codec α) (input : String) (piece : List Char) :
    c.readEntry input piece = cutEntry input piece >>= c.readCut := by
  unfold readEntry cutEntry
  simp only
  split_ifs with hEmpty hColon hToken
  · rfl
  · rfl
  · cases readShare input (trim piece) (before ':' (trim piece)) with
    | error e => rfl
    | ok share =>
        show _ = c.readCut (share, _)
        rw [readCut]
        cases c.readToken (trim (after ':' (trim piece))) <;> rfl
  · show _ = c.readCut (.weighted 1, _)
    rw [readCut]
    cases c.readToken (trim piece) <;> rfl

/-! ## What each step reports -/

theorem readNumber_error {input : String} {fault : String → Malformation}
    {cs : List Char} {e : Error} (h : readNumber input fault cs = .error e) :
    e = .malformed input (fault (String.ofList (trim cs))) := by
  unfold readNumber at h
  split at h
  · cases h
  · exact (Except.error.inj h).symm

theorem bind_eq_error_iff {ε β γ : Type} {x : Except ε β} {f : β → Except ε γ}
    {e : ε} :
    x >>= f = .error e ↔ x = .error e ∨ ∃ a, x = .ok a ∧ f a = .error e := by
  cases x with
  | error e' => simp [bind, Except.bind]
  | ok a => simp [bind, Except.bind]

theorem readShare_error {input : String} {entry front : List Char} {e : Error}
    (h : readShare input entry front = .error e) :
    ∃ fault, e = .malformed input fault := by
  unfold readShare at h
  split_ifs at h with hPercent hGap
  · rcases bind_eq_error_iff.1 h with hNumber | ⟨_, -, hShare⟩
    · exact ⟨_, readNumber_error hNumber⟩
    · cases hShare
  · exact ⟨_, (Except.error.inj h).symm⟩
  · rcases bind_eq_error_iff.1 h with hNumber | ⟨_, -, hShare⟩
    · exact ⟨_, readNumber_error hNumber⟩
    · cases hShare

/-- A piece that is not cut is malformed. -/
theorem cutEntry_error {input : String} {piece : List Char} {e : Error}
    (h : cutEntry input piece = .error e) :
    ∃ fault, e = .malformed input fault := by
  unfold cutEntry at h
  simp only at h
  split_ifs at h with hEmpty hColon hToken
  · exact ⟨_, (Except.error.inj h).symm⟩
  · exact ⟨_, (Except.error.inj h).symm⟩
  · rcases bind_eq_error_iff.1 h with hShare | ⟨_, -, hCut⟩
    · exact readShare_error hShare
    · cases hCut
  · cases h

/-- The token step reports the token. -/
theorem readToken_eq_error_iff {c : Codec α} {cs : List Char} {e : Error} :
    c.readToken cs = .error e ↔
      e = .unrecognizedToken (String.ofList cs) c.reader.pattern ∧
        (c.token.Matches cs → c.reader.read cs = none) := by
  rw [← Pattern.accepts_iff_matches, readToken]
  cases c.token.accepts cs with
  | false => simp [eq_comm]
  | true => cases c.reader.read cs <;> simp [eq_comm]

theorem readCut_eq_ok_iff {c : Codec α} {cut : Share × List Char}
    {e : Entry α} :
    c.readCut cut = .ok e ↔ e.share = cut.1 ∧ c.StatedValue cut.2 e.value := by
  rw [readCut, ← readToken_eq_ok_iff]
  obtain ⟨value, share⟩ := e
  cases c.readToken cut.2 with
  | error err => simp [Except.map]
  | ok v => simp [Except.map, and_comm, eq_comm]

theorem readCut_eq_error_iff {c : Codec α} {cut : Share × List Char}
    {e : Error} :
    c.readCut cut = .error e ↔
      e = .unrecognizedToken (String.ofList cut.2) c.reader.pattern ∧
        (c.token.Matches cut.2 → c.reader.read cut.2 = none) := by
  rw [← readToken_eq_error_iff, readCut]
  cases c.readToken cut.2 <;> simp [Except.map]

/-! ## Pieces in the form of an entry -/

/-- A piece is read, or it is refused for the value of a token that matches
the pattern of tokens. -/
def InForm (c : Codec α) (input : String) (piece : List Char) : Prop :=
  (∃ e, c.readEntry input piece = .ok e) ∨
    ∃ token,
      c.readEntry input piece =
        .error (.unrecognizedToken token c.reader.pattern) ∧
      c.token.accepts token.toList = true

theorem inForm_iff {c : Codec α} {input : String} {piece : List Char} :
    c.InForm input piece ↔
      ∃ cut, cutEntry input piece = .ok cut ∧ c.token.Matches cut.2 := by
  rw [InForm, readEntry_eq]
  constructor
  · rintro (⟨e, h⟩ | ⟨token, h, hToken⟩)
    · obtain ⟨cut, hCut, hRead⟩ := bind_eq_ok_iff.1 h
      exact ⟨cut, hCut, (readCut_eq_ok_iff.1 hRead).2.1⟩
    · rcases bind_eq_error_iff.1 h with hCut | ⟨cut, hCut, hRead⟩
      · obtain ⟨fault, hFault⟩ := cutEntry_error hCut
        cases hFault
      · obtain ⟨hEq, -⟩ := readCut_eq_error_iff.1 hRead
        rw [Error.unrecognizedToken.injEq] at hEq
        rw [hEq.1, String.toList_ofList, Pattern.accepts_iff_matches] at hToken
        exact ⟨cut, hCut, hToken⟩
  · rintro ⟨cut, hCut, hToken⟩
    cases hValue : c.reader.read cut.2 with
    | some v =>
        exact Or.inl ⟨⟨v, cut.1⟩, bind_eq_ok_iff.2
          ⟨cut, hCut, readCut_eq_ok_iff.2 ⟨rfl, hToken, hValue⟩⟩⟩
    | none =>
        refine Or.inr ⟨String.ofList cut.2, bind_eq_error_iff.2 (Or.inr
          ⟨cut, hCut, readCut_eq_error_iff.2 ⟨rfl, fun _ => hValue⟩⟩), ?_⟩
        rw [String.toList_ofList, Pattern.accepts_iff_matches]
        exact hToken

/-- A piece in form is refused only because its token has no value. -/
theorem InForm.readEntry_error {c : Codec α} {input : String}
    {piece : List Char} (h : c.InForm input piece) {e : Error}
    (he : c.readEntry input piece = .error e) :
    ∃ token, e = .unrecognizedToken token c.reader.pattern ∧
      c.token.accepts token.toList = true ∧
      c.reader.read token.toList = none := by
  obtain ⟨cut, hCut, hToken⟩ := inForm_iff.1 h
  rw [readEntry_eq, hCut] at he
  obtain ⟨rfl, hNone⟩ := readCut_eq_error_iff.1 he
  refine ⟨String.ofList cut.2, rfl, ?_, ?_⟩
  · rw [String.toList_ofList, Pattern.accepts_iff_matches]
    exact hToken
  · rw [String.toList_ofList]
    exact hNone hToken

/-- Only a piece without the blanks around it matters. -/
theorem InForm.padded_iff {c : Codec α} {input : String}
    {piece padded : List Char} (h : Padded piece padded) :
    c.InForm input padded ↔ c.InForm input piece := by
  obtain ⟨l, r, hl, hr, rfl⟩ := h
  simp only [inForm_iff, cutEntry, trim_padded hl hr]

/-- The codec with the same patterns for which every token is its own
value. -/
def lenient (c : Codec α) : Codec (List Char) :=
  ⟨⟨c.reader.pattern, some⟩, c.token, c.spec⟩

theorem Plain.lenient {c : Codec α} (hc : c.Plain) : c.lenient.Plain :=
  ⟨hc.ne_nil, hc.isTokenChar⟩

/-- The form of an entry is what the grammar asks for if every token has a
value. -/
theorem inForm_iff_statedEntry {c : Codec α} (hc : c.Plain) (input : String)
    {piece : List Char} :
    c.InForm input piece ↔ ∃ e, c.lenient.StatedEntry piece e := by
  have hStated : ∀ e, c.lenient.readEntry input piece = .ok e ↔
      c.lenient.StatedEntry piece e := fun _ => readEntry_eq_ok_iff hc.lenient
  simp only [← hStated, inForm_iff, readEntry_eq, bind_eq_ok_iff,
    readCut_eq_ok_iff]
  constructor
  · rintro ⟨cut, hCut, hToken⟩
    exact ⟨⟨cut.2, cut.1⟩, cut, hCut, rfl, hToken, rfl⟩
  · rintro ⟨e, cut, hCut, -, hToken, -⟩
    exact ⟨cut, hCut, hToken⟩

/-! ## Brackets -/

/-- A text has a bracket on one side only. -/
def Lopsided (cs : List Char) : Prop :=
  ¬ ((trim cs).head? = some '[' ↔ (trim cs).getLast? = some ']')

instance (cs : List Char) : Decidable (Lopsided cs) :=
  inferInstanceAs (Decidable (¬ (_ ↔ _)))

/-- A text without a bracket at its beginning, if there is one. -/
def withoutOpening : List Char → List Char
  | '[' :: rest => rest
  | cs => cs

/-- A text without a bracket at its end, if there is one. -/
def withoutClosing (cs : List Char) : List Char :=
  if cs.getLast? = some ']' then cs.dropLast else cs

/-- A text without a bracket at its beginning and without one at its end,
whichever are there. -/
def withoutBrackets (cs : List Char) : List Char :=
  withoutClosing (withoutOpening cs)

theorem withoutOpening_of_head?_ne {cs : List Char}
    (h : cs.head? ≠ some '[') : withoutOpening cs = cs := by
  unfold withoutOpening
  split
  · exact absurd rfl h
  · rfl

theorem withoutClosing_of_getLast?_ne {cs : List Char}
    (h : cs.getLast? ≠ some ']') : withoutClosing cs = cs := if_neg h

@[simp] theorem withoutClosing_concat (cs : List Char) :
    withoutClosing (cs ++ [']']) = cs := by
  simp [withoutClosing]

theorem withoutBrackets_append {o u e : List Char} (ho : o = ['['] ∨ o = [])
    (he : e = [']'] ∨ e = []) (hOpen : '[' ∉ u) (hClose : ']' ∉ u) :
    withoutBrackets (o ++ u ++ e) = u := by
  have hHead : (u ++ e).head? ≠ some '[' := by
    intro hHead
    rcases List.mem_append.1 (List.mem_of_mem_head? hHead) with hu | hEnd
    · exact hOpen hu
    · rcases he with rfl | rfl
      · exact absurd hEnd (by decide)
      · exact absurd hEnd List.not_mem_nil
  have hOpened : withoutOpening (o ++ u ++ e) = u ++ e := by
    rcases ho with rfl | rfl
    · rfl
    · exact withoutOpening_of_head?_ne hHead
  rw [withoutBrackets, hOpened]
  rcases he with rfl | rfl
  · exact withoutClosing_concat u
  · rw [List.append_nil]
    exact withoutClosing_of_getLast?_ne fun hLast =>
      hClose (List.mem_of_getLast? hLast)

/-- A text is what is left without brackets, between them. -/
theorem exists_eq_withoutBrackets (cs : List Char) :
    ∃ o e, (o = ['['] ∨ o = []) ∧ (e = [']'] ∨ e = []) ∧
      cs = o ++ withoutBrackets cs ++ e := by
  have hStart : ∃ o, (o = ['['] ∨ o = []) ∧ cs = o ++ withoutOpening cs := by
    unfold withoutOpening
    split
    · exact ⟨['['], Or.inl rfl, rfl⟩
    · exact ⟨[], Or.inr rfl, rfl⟩
  have hEnd : ∃ e, (e = [']'] ∨ e = []) ∧
      withoutOpening cs = withoutBrackets cs ++ e := by
    unfold withoutBrackets withoutClosing
    split
    · rename_i hLast
      exact ⟨[']'], Or.inl rfl, (List.dropLast_append_getLast? _ hLast).symm⟩
    · exact ⟨[], Or.inr rfl, (List.append_nil _).symm⟩
  obtain ⟨o, ho, hText⟩ := hStart
  obtain ⟨e, he, hRest⟩ := hEnd
  refine ⟨o, e, ho, he, ?_⟩
  rw [List.append_assoc, ← hRest]
  exact hText

/-- A text whose brackets are stripped loses both or has none. -/
theorem eq_withoutBrackets {cs body : List Char}
    (h : stripBrackets? cs = some body) : body = withoutBrackets (trim cs) := by
  rcases stripBrackets?_eq_some_iff.1 h with hBoth | ⟨rfl, hHead, hLast⟩
  · rw [hBoth]
    exact (withoutClosing_concat body).symm
  · rw [withoutBrackets, withoutOpening_of_head?_ne hHead,
      withoutClosing_of_getLast?_ne hLast]

/-- Only a bracket on one side cannot be stripped. -/
theorem stripBrackets?_eq_none_iff {cs : List Char} :
    stripBrackets? cs = none ↔ Lopsided cs := by
  unfold stripBrackets? Lopsided
  split
  · rename_i rest hTrim
    have hLast : ('[' :: rest).getLast? = some ']' ↔
        rest.getLast? = some ']' := by
      rw [List.getLast?_cons, Option.some.injEq]
      cases rest.getLast? with
      | none => simp
      | some c => simp
    rw [hTrim, hLast]
    split_ifs with hClose
    · simp [hClose]
    · simp [hClose]
  · rename_i hOpen
    have hHead : (trim cs).head? ≠ some '[' := by
      intro hHead
      obtain ⟨rest, hRest⟩ := List.head?_eq_some_iff.1 hHead
      exact hOpen rest hRest
    split_ifs with hClose
    · simp [hHead, hClose]
    · simp [hHead, hClose]

/-! ## Reading whole texts -/

/-- A traversal ends at the first step that fails. -/
theorem mapM_eq_error_iff {ε β γ : Type} {f : β → Except ε γ} {xs : List β}
    {e : ε} :
    xs.mapM f = .error e ↔
      ∃ before x after, xs = before ++ x :: after ∧
        (∀ y ∈ before, ∃ z, f y = .ok z) ∧ f x = .error e := by
  constructor
  · intro h
    induction xs with
    | nil => cases h
    | cons x xs ih =>
        rw [List.mapM_cons] at h
        rcases bind_eq_error_iff.1 h with hHead | ⟨z, hHead, hRest⟩
        · exact ⟨[], x, xs, rfl, by simp, hHead⟩
        · rcases bind_eq_error_iff.1 hRest with hTail | ⟨zs, -, hDone⟩
          · obtain ⟨before, x', after, rfl, hOk, hFail⟩ := ih hTail
            refine ⟨x :: before, x', after, rfl, ?_, hFail⟩
            exact List.forall_mem_cons.2 ⟨⟨z, hHead⟩, hOk⟩
          · cases hDone
  · rintro ⟨before, x, after, rfl, hOk, hFail⟩
    induction before with
    | nil =>
        rw [List.nil_append, List.mapM_cons, hFail]
        rfl
    | cons y before ih =>
        obtain ⟨⟨z, hHead⟩, hOk⟩ := List.forall_mem_cons.1 hOk
        rw [List.cons_append, List.mapM_cons, hHead]
        exact bind_eq_error_iff.2 (.inr ⟨z, rfl,
          bind_eq_error_iff.2 (.inl (ih hOk))⟩)

theorem mapM_eq_error {ε β γ : Type} {f : β → Except ε γ} {xs : List β} {e : ε}
    (h : xs.mapM f = .error e) : ∃ x ∈ xs, f x = .error e := by
  obtain ⟨before, x, after, rfl, -, hFail⟩ := mapM_eq_error_iff.1 h
  exact ⟨x, by simp, hFail⟩

/-- Reading in terms of the text without brackets. -/
theorem readEntries_eq (c : Codec α) (text : String) :
    c.readEntries text =
      if Lopsided text.toList then .error (.malformed text .unbalancedBrackets)
      else if (trim (withoutBrackets (trim text.toList))).isEmpty then
        .error .noEntries
      else (pieces ',' (withoutBrackets (trim text.toList))).mapM
        (c.readEntry text) := by
  unfold readEntries
  by_cases hSide : Lopsided text.toList
  · rw [if_pos hSide, stripBrackets?_eq_none_iff.2 hSide]
  · rw [if_neg hSide]
    cases hBody : stripBrackets? text.toList with
    | none => exact absurd (stripBrackets?_eq_none_iff.1 hBody) hSide
    | some body => rw [← eq_withoutBrackets hBody]

/-- The entries of a text are those of its pieces, in order. -/
theorem readEntry_of_readEntries {c : Codec α} {text : String}
    {es : List (Entry α)} (h : c.readEntries text = .ok es) :
    List.Forall₂ (fun p e => c.readEntry text p = .ok e)
      (pieces ',' (withoutBrackets (trim text.toList))) es := by
  rw [readEntries_eq] at h
  split_ifs at h
  exact mapM_eq_ok_iff.1 h

end Codec

end ValueMix
