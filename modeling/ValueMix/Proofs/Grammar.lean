import Mathlib
import ValueMix.Proofs.BuiltIn

/-!
# The grammar of distributions

A text states entries if, without the blanks around it and perhaps without
brackets, it is a list of pieces with commas between them. Every piece is
a token by itself or behind a share and a colon. `Codec.readEntries` cuts at
the first colon and the first percent sign and trims what it gets; it accepts
exactly this grammar, for any codec whose tokens are plain.

## Main results

* `readShare_eq_ok_iff`, `readEntry_eq_ok_iff` — shares and pieces.
* `readEntries_eq_ok_iff` — whole texts, for codecs with plain tokens.
* `readEntries_reader` — whole texts of every kind.
-/

namespace ValueMix

open ValueMix.Number ValueMix.Text

namespace Codec

variable {α : Type}

/-! ## Computations that may fail -/

theorem bind_eq_ok_iff {ε β γ : Type} {x : Except ε β} {f : β → Except ε γ}
    {b : γ} : x >>= f = .ok b ↔ ∃ a, x = .ok a ∧ f a = .ok b := by
  cases x with
  | error e => exact iff_of_false nofun nofun
  | ok a =>
      constructor
      · intro h
        exact ⟨a, rfl, h⟩
      · rintro ⟨a', ha, h⟩
        rw [Except.ok.inj ha]
        exact h

/-- A traversal succeeds if every step does. -/
theorem mapM_eq_ok_iff {ε β γ : Type} {f : β → Except ε γ} {xs : List β}
    {ys : List γ} :
    xs.mapM f = .ok ys ↔ List.Forall₂ (fun x y => f x = .ok y) xs ys := by
  induction xs generalizing ys with
  | nil =>
      rw [List.mapM_nil, List.forall₂_nil_left_iff]
      constructor
      · intro h
        exact (Except.ok.inj h).symm
      · rintro rfl
        rfl
  | cons x xs ih =>
      rw [List.mapM_cons, bind_eq_ok_iff, List.forall₂_cons_left_iff]
      constructor
      · rintro ⟨y, hy, h⟩
        obtain ⟨ys', hys, h⟩ := bind_eq_ok_iff.1 h
        exact ⟨y, ys', hy, ih.1 hys, (Except.ok.inj h).symm⟩
      · rintro ⟨y, ys', hy, hys, rfl⟩
        exact ⟨y, hy, bind_eq_ok_iff.2 ⟨ys', ih.2 hys, rfl⟩⟩

/-- Every member of one list has a partner in the other. -/
theorem exists_partner {β γ : Type} {R : β → γ → Prop} {xs : List β}
    {ys : List γ} (h : List.Forall₂ R xs ys) : ∀ x ∈ xs, ∃ y ∈ ys, R x y := by
  induction h with
  | nil => exact fun x hx => absurd hx List.not_mem_nil
  | @cons x y xs ys hxy _ ih =>
      refine List.forall_mem_cons.2 ⟨⟨y, by simp, hxy⟩, fun x' hx' => ?_⟩
      obtain ⟨y', hy', hxy'⟩ := ih x' hx'
      exact ⟨y', by simp [hy'], hxy'⟩

/-! ## The rules -/

/-- The shares that may stand in front of a colon. -/
inductive StatedShare : List Char → Share → Prop where
  /-- A number is a weight. -/
  | weight {n cs : List Char} {q : ℚ} :
      SignedNumeral n q → Padded n cs → StatedShare cs (.weighted q)
  /-- A number in front of a percent sign is a percentage. -/
  | percentage {n cs gap : List Char} {q : ℚ} :
      SignedNumeral n q → Padded n cs → Blank gap →
      StatedShare (cs ++ '%' :: gap) (.fixed (q / 100))

/-- A token of a codec and its value. -/
def StatedValue (c : Codec α) (t : List Char) (v : α) : Prop :=
  c.token.Matches t ∧ c.reader.read t = some v

/-- The pieces between commas and the entries they state. -/
inductive StatedEntry (c : Codec α) : List Char → Entry α → Prop where
  | bare {t piece : List Char} {v : α} :
      c.StatedValue t v → Padded t piece →
      StatedEntry c piece ⟨v, .weighted 1⟩
  | shared {front t back : List Char} {share : Share} {v : α} :
      StatedShare front share → c.StatedValue t v → Padded t back →
      StatedEntry c (front ++ ':' :: back) ⟨v, share⟩

/-- Pieces, at least one, with commas between them. -/
def StatedEntries (c : Codec α) (body : List Char) (es : List (Entry α)) :
    Prop :=
  ∃ ps, ps ≠ [] ∧ body = [','].intercalate ps ∧
    List.Forall₂ c.StatedEntry ps es

/-- A whole text: entries, in brackets or without. -/
def StatedSpec (c : Codec α) (cs : List Char) (es : List (Entry α)) : Prop :=
  ∃ body, (trim cs = body ∨ trim cs = '[' :: body ++ [']']) ∧
    c.StatedEntries body es

/-! ## The characters of pieces -/

/-- The characters that pieces are made of. -/
def IsPieceChar (ch : Char) : Prop :=
  isBlank ch = true ∨ IsNumeralChar ch ∨ IsTokenChar ch ∨ ch = ':' ∨ ch = '%'

/-- The characters of a share: none of them is a colon. -/
theorem StatedShare.forall_mem {cs : List Char} {share : Share}
    (h : StatedShare cs share) :
    ∀ ch ∈ cs, isBlank ch = true ∨ IsNumeralChar ch ∨ ch = '%' := by
  have hNumber : ∀ {n cs : List Char} {q : ℚ}, SignedNumeral n q →
      Padded n cs →
      ∀ ch ∈ cs, isBlank ch = true ∨ IsNumeralChar ch ∨ ch = '%' :=
    fun hNum hPad => hPad.forall_mem (fun _ h => Or.inl h)
      fun ch hch => Or.inr (Or.inl (hNum.isNumeralChar ch hch))
  cases h with
  | weight hNum hPad => exact hNumber hNum hPad
  | percentage hNum hPad hGap =>
      rw [List.forall_mem_append, List.forall_mem_cons]
      exact ⟨hNumber hNum hPad, Or.inr (Or.inr rfl),
        fun ch hch => Or.inl (hGap ch hch)⟩

theorem StatedShare.colon_not_mem {cs : List Char} {share : Share}
    (h : StatedShare cs share) : ':' ∉ cs := by
  intro hMem
  have := h.forall_mem ':' hMem
  revert this
  unfold IsNumeralChar
  decide

theorem StatedEntry.isPieceChar {c : Codec α} (hc : c.Plain)
    {piece : List Char} {e : Entry α} (h : c.StatedEntry piece e) :
    ∀ ch ∈ piece, IsPieceChar ch := by
  have hValue : ∀ {t back : List Char} {v : α}, c.StatedValue t v →
      Padded t back → ∀ ch ∈ back, IsPieceChar ch :=
    fun hVal hPad => hPad.forall_mem (fun _ h => Or.inl h)
      fun ch hch => Or.inr (Or.inr (Or.inl (hc.isTokenChar _ hVal.1 ch hch)))
  cases h with
  | bare hVal hPad => exact hValue hVal hPad
  | shared hShare hVal hPad =>
      rw [List.forall_mem_append, List.forall_mem_cons]
      refine ⟨fun ch hch => ?_, by simp [IsPieceChar], hValue hVal hPad⟩
      rcases hShare.forall_mem ch hch with hBlank | hNum | rfl
      · exact Or.inl hBlank
      · exact Or.inr (Or.inl hNum)
      · simp [IsPieceChar]

/-- Pieces contain neither separators nor brackets. -/
theorem StatedEntry.not_mem {c : Codec α} (hc : c.Plain) {piece : List Char}
    {e : Entry α} (h : c.StatedEntry piece e) :
    ',' ∉ piece ∧ '[' ∉ piece ∧ ']' ∉ piece := by
  have hChars := h.isPieceChar hc
  refine ⟨fun hMem => ?_, fun hMem => ?_, fun hMem => ?_⟩
  all_goals
    have := hChars _ hMem
    revert this
    unfold IsPieceChar IsNumeralChar
    decide

/-- A piece is not blank. -/
theorem StatedEntry.not_blank {c : Codec α} (hc : c.Plain) {piece : List Char}
    {e : Entry α} (h : c.StatedEntry piece e) : ¬ Blank piece := by
  cases h with
  | @bare t piece v hVal hPad =>
      obtain ⟨l, r, -, -, rfl⟩ := hPad
      obtain ⟨ch, hch⟩ := List.exists_mem_of_ne_nil t (hc.ne_nil t hVal.1)
      intro hBlank
      have hToken := isBlank_of_isTokenChar (hc.isTokenChar t hVal.1 ch hch)
      rw [hBlank ch (by simp [hch])] at hToken
      cases hToken
  | shared hShare hVal hPad =>
      intro hBlank
      have hColon : isBlank ':' = true := hBlank ':' (by simp)
      revert hColon
      decide

/-! ## Blanks in front -/

theorem StatedShare.padded {l front : List Char} {share : Share}
    (h : StatedShare front share) (hl : Blank l) :
    StatedShare (l ++ front) share := by
  cases h with
  | weight hNum hPad => exact .weight hNum (hPad.append_left hl)
  | percentage hNum hPad hGap =>
      rw [← List.append_assoc]
      exact .percentage hNum (hPad.append_left hl) hGap

theorem StatedEntry.padded {c : Codec α} {l piece : List Char} {e : Entry α}
    (h : c.StatedEntry piece e) (hl : Blank l) :
    c.StatedEntry (l ++ piece) e := by
  cases h with
  | bare hVal hPad => exact .bare hVal (hPad.append_left hl)
  | shared hShare hVal hPad =>
      rw [← List.append_assoc]
      exact .shared (hShare.padded hl) hVal hPad

/-- A share begins, behind blanks, with a character that is none. -/
theorem StatedShare.unpadded {front : List Char} {share : Share}
    (h : StatedShare front share) :
    ∃ l n rest, Blank l ∧ Tight n ∧ n ≠ [] ∧ front = l ++ (n ++ rest) ∧
      StatedShare (n ++ rest) share := by
  cases h with
  | @weight n cs q hNum hPad =>
      obtain ⟨l, r, hl, hr, rfl⟩ := hPad
      exact ⟨l, n, r, hl, hNum.tight, hNum.ne_nil, by simp,
        .weight hNum ⟨[], r, blank_nil, hr, rfl⟩⟩
  | @percentage n cs gap q hNum hPad hGap =>
      obtain ⟨l, r, hl, hr, rfl⟩ := hPad
      have hRest := StatedShare.percentage hNum
        ⟨[], r, blank_nil, hr, rfl⟩ hGap
      exact ⟨l, n, r ++ '%' :: gap, hl, hNum.tight, hNum.ne_nil, by simp,
        by simpa using hRest⟩

/-! ## Reading shares and pieces -/

theorem readToken_eq_ok_iff {c : Codec α} {cs : List Char} {v : α} :
    c.readToken cs = .ok v ↔ c.StatedValue cs v := by
  rw [StatedValue, ← Pattern.accepts_iff_matches, readToken]
  cases c.token.accepts cs with
  | false => simp
  | true => cases c.reader.read cs <;> simp

theorem readNumber_eq_ok_iff {input : String} {fault : String → Malformation}
    {cs : List Char} {q : ℚ} :
    readNumber input fault cs = .ok q ↔
      ∃ n, Padded n cs ∧ SignedNumeral n q := by
  rw [← readDecimal_eq_some_iff, readNumber]
  cases readDecimal cs <;> simp

/-- Reading in front of a colon accepts exactly the shares. -/
theorem readShare_eq_ok_iff {input : String} {entry front : List Char}
    {share : Share} :
    readShare input entry front = .ok share ↔ StatedShare front share := by
  unfold readShare
  constructor
  · intro h
    split_ifs at h with hPercent hGap
    · rw [List.contains_iff_mem] at hPercent
      rw [isEmpty_trim_iff] at hGap
      obtain ⟨q, hq, hShare⟩ := bind_eq_ok_iff.1 h
      obtain ⟨n, hPad, hNum⟩ := readNumber_eq_ok_iff.1 hq
      rw [← Except.ok.inj hShare, ← before_append_after hPercent]
      exact .percentage hNum hPad hGap
    · obtain ⟨q, hq, hShare⟩ := bind_eq_ok_iff.1 h
      obtain ⟨n, hPad, hNum⟩ := readNumber_eq_ok_iff.1 hq
      rw [← Except.ok.inj hShare]
      exact .weight hNum hPad
  · intro h
    cases h with
    | @weight n cs q hNum hPad =>
        rw [if_neg (by
          rw [List.contains_iff_mem]
          exact hNum.percent_not_mem hPad)]
        exact bind_eq_ok_iff.2
          ⟨q, readNumber_eq_ok_iff.2 ⟨n, hPad, hNum⟩, rfl⟩
    | @percentage n cs gap q hNum hPad hGap =>
        have hPercent := hNum.percent_not_mem hPad
        rw [if_pos (by rw [List.contains_iff_mem]; simp),
          before_append hPercent, after_append hPercent,
          if_pos (isEmpty_trim_iff.2 hGap)]
        exact bind_eq_ok_iff.2
          ⟨q, readNumber_eq_ok_iff.2 ⟨n, hPad, hNum⟩, rfl⟩

/-- What is read from a piece whose first colon is known. -/
theorem readEntry_of_colon {c : Codec α} {input : String}
    {piece front back : List Char} {e : Entry α}
    (hTrim : trim piece = front ++ ':' :: back) (hColon : ':' ∉ front) :
    c.readEntry input piece = .ok e ↔
      StatedShare front e.share ∧ trim back ≠ [] ∧
        c.StatedValue (trim back) e.value := by
  unfold readEntry
  simp only [hTrim, before_append hColon, after_append hColon]
  rw [if_neg (by simp), if_pos (by simp)]
  by_cases hBack : trim back = []
  · rw [if_pos (by rw [hBack]; rfl)]
    exact iff_of_false nofun fun h => h.2.1 hBack
  · rw [if_neg (by simpa using hBack), bind_eq_ok_iff]
    simp only [bind_eq_ok_iff, readShare_eq_ok_iff, readToken_eq_ok_iff]
    constructor
    · rintro ⟨share, hShare, v, hVal, h⟩
      rw [← Except.ok.inj h]
      exact ⟨hShare, hBack, hVal⟩
    · rintro ⟨hShare, -, hVal⟩
      exact ⟨e.share, hShare, e.value, hVal, rfl⟩

/-- Reading a piece accepts exactly the pieces that state an entry. -/
theorem readEntry_eq_ok_iff {c : Codec α} (hc : c.Plain) {input : String}
    {piece : List Char} {e : Entry α} :
    c.readEntry input piece = .ok e ↔ c.StatedEntry piece e := by
  obtain ⟨l, r, hl, hr, hPiece⟩ := padded_trim piece
  constructor
  · intro h
    by_cases hColon : ':' ∈ trim piece
    · have hTrim := (before_append_after hColon).symm
      rw [readEntry_of_colon hTrim (not_mem_before _ _)] at h
      obtain ⟨hShare, -, hVal⟩ := h
      obtain ⟨l', r', hl', hr', hBack⟩ := padded_trim (after ':' (trim piece))
      have hStated := StatedEntry.shared (hShare.padded hl) hVal
        ⟨l', r' ++ r, hl', List.forall_mem_append.2 ⟨hr', hr⟩, rfl⟩
      rw [hPiece, hTrim]
      rw [← List.append_assoc, ← hBack] at hStated
      simpa using hStated
    · have hNone : (trim piece).contains ':' = false := by
        rw [← Bool.not_eq_true, List.contains_iff_mem]
        exact hColon
      unfold readEntry at h
      simp only [hNone, Bool.false_eq_true, if_false] at h
      split_ifs at h with hEmpty
      obtain ⟨v, hVal, h⟩ := bind_eq_ok_iff.1 h
      rw [← Except.ok.inj h]
      exact .bare (readToken_eq_ok_iff.1 hVal) ⟨l, r, hl, hr, hPiece⟩
  · intro h
    cases h with
    | @bare t piece v hVal hPad =>
        have hTrim := hPad.trim_eq (hc.tight hVal.1)
        have hColon : ':' ∉ t := hc.not_mem hVal.1 (by decide)
        unfold readEntry
        simp only [hTrim]
        rw [if_neg (by simpa using hc.ne_nil t hVal.1),
          if_neg (by rw [List.contains_iff_mem]; exact hColon)]
        exact bind_eq_ok_iff.2 ⟨v, readToken_eq_ok_iff.2 hVal, rfl⟩
    | @shared front t back share v hShare hVal hPad =>
        obtain ⟨lf, n, rest, hlf, hTight, hne, rfl, hFront⟩ := hShare.unpadded
        obtain ⟨lb, rb, hlb, hrb, rfl⟩ := hPad
        -- both ends of what stands between the outer blanks are tight
        have hEnds : Tight (n ++ (rest ++ ':' :: lb) ++ t) :=
          hTight.append (hc.tight hVal.1) hne (hc.ne_nil t hVal.1)
        have hTrim : trim (lf ++ (n ++ rest) ++ ':' :: (lb ++ t ++ rb)) =
            (n ++ rest) ++ ':' :: (lb ++ t) := by
          rw [Padded.trim_eq ⟨lf, rb, hlf, hrb, by simp⟩ hEnds]
          simp
        have hToken : trim (lb ++ t) = t :=
          Padded.trim_eq ⟨lb, [], hlb, blank_nil, by simp⟩ (hc.tight hVal.1)
        rw [readEntry_of_colon hTrim hFront.colon_not_mem, hToken]
        exact ⟨hFront, hc.ne_nil t hVal.1, hVal⟩

/-! ## Reading whole texts -/

theorem stripBrackets?_eq_some_iff {cs body : List Char} :
    stripBrackets? cs = some body ↔
      trim cs = '[' :: body ++ [']'] ∨
        (trim cs = body ∧ body.head? ≠ some '[' ∧
          body.getLast? ≠ some ']') := by
  unfold stripBrackets?
  split
  · rename_i rest hTrim
    rw [hTrim]
    constructor
    · intro h
      split_ifs at h with hLast
      left
      rw [← Option.some.inj h, List.cons_append, List.cons.injEq]
      exact ⟨rfl, (List.dropLast_append_getLast? _ hLast).symm⟩
    · rintro (h | ⟨rfl, hHead, -⟩)
      · rw [(List.cons.inj h).2, List.append_eq, if_pos (by simp)]
        simp
      · exact absurd rfl hHead
  · rename_i hOpen
    generalize trim cs = text at hOpen ⊢
    constructor
    · intro h
      split_ifs at h with hLast
      right
      rw [← Option.some.inj h]
      refine ⟨rfl, fun hHead => ?_, hLast⟩
      obtain ⟨rest, hRest⟩ := List.head?_eq_some_iff.1 hHead
      exact hOpen rest hRest
    · rintro (h | ⟨rfl, -, hLast⟩)
      · exact absurd h (hOpen _)
      · rw [if_neg hLast]

theorem forall_piece {c : Codec α} {P : List Char → Prop}
    {ps : List (List Char)} {es : List (Entry α)}
    (h : List.Forall₂ c.StatedEntry ps es)
    (hPiece : ∀ p e, c.StatedEntry p e → P p) : ∀ p ∈ ps, P p := by
  intro p hp
  obtain ⟨e, -, hStated⟩ := exists_partner h p hp
  exact hPiece p e hStated

theorem StatedEntries.not_mem {c : Codec α} (hc : c.Plain) {body : List Char}
    {es : List (Entry α)} (h : c.StatedEntries body es) :
    '[' ∉ body ∧ ']' ∉ body := by
  obtain ⟨ps, -, rfl, hPieces⟩ := h
  have hNone := forall_piece hPieces fun p e hp => (hp.not_mem hc).2
  exact ⟨not_mem_intercalate (by decide) fun p hp => (hNone p hp).1,
    not_mem_intercalate (by decide) fun p hp => (hNone p hp).2⟩

theorem StatedEntries.not_blank {c : Codec α} (hc : c.Plain)
    {body : List Char} {es : List (Entry α)} (h : c.StatedEntries body es) :
    ¬ Blank body := by
  obtain ⟨ps, hne, rfl, hPieces⟩ := h
  obtain ⟨p, hp⟩ := List.exists_mem_of_ne_nil ps hne
  intro hBlank
  exact forall_piece hPieces (fun p e hp => hp.not_blank hc) p hp
    fun ch hch => hBlank ch (mem_intercalate hp hch)

/-- Reading the text between the brackets accepts exactly the lists of
pieces. -/
theorem mapM_readEntry_eq_ok_iff {c : Codec α} (hc : c.Plain) {input : String}
    {body : List Char} {es : List (Entry α)} :
    (pieces ',' body).mapM (c.readEntry input) = .ok es ↔
      c.StatedEntries body es := by
  rw [mapM_eq_ok_iff]
  simp only [readEntry_eq_ok_iff hc]
  constructor
  · intro h
    exact ⟨pieces ',' body, pieces_ne_nil _ _, (intercalate_pieces _ _).symm, h⟩
  · rintro ⟨ps, hne, rfl, h⟩
    rw [pieces_intercalate hne]
    · exact h
    · exact forall_piece h fun p e hp => (hp.not_mem hc).1

/-- Reading accepts exactly the texts that state entries. -/
theorem readEntries_eq_ok_iff {c : Codec α} (hc : c.Plain) {text : String}
    {es : List (Entry α)} :
    c.readEntries text = .ok es ↔ c.StatedSpec text.toList es := by
  unfold readEntries StatedSpec
  constructor
  · intro h
    cases hBody : stripBrackets? text.toList with
    | none => rw [hBody] at h; cases h
    | some body =>
        rw [hBody] at h
        dsimp only at h
        split_ifs at h with hEmpty
        refine ⟨body, ?_, (mapM_readEntry_eq_ok_iff hc).1 h⟩
        rcases stripBrackets?_eq_some_iff.1 hBody with hIn | ⟨hOut, -, -⟩
        · exact Or.inr hIn
        · exact Or.inl hOut
  · rintro ⟨body, hText, hStated⟩
    have hBody : stripBrackets? text.toList = some body := by
      rw [stripBrackets?_eq_some_iff]
      obtain ⟨hOpen, hClose⟩ := hStated.not_mem hc
      rcases hText with hOut | hIn
      · exact Or.inr ⟨hOut, fun h => hOpen (List.mem_of_mem_head? h),
          fun h => hClose (List.mem_of_getLast? h)⟩
      · exact Or.inl hIn
    rw [hBody]
    dsimp only
    rw [if_neg, mapM_readEntry_eq_ok_iff hc]
    · exact hStated
    · rw [isEmpty_trim_iff]
      exact hStated.not_blank hc

end Codec

/-- **What the texts of every kind state.** -/
theorem Kind.readEntries_reader (k : Kind) :
    Codec.ofReader k.reader = .ok k.codec ∧
    ∀ text : String,
      (∀ es, k.codec.readEntries text = .ok es ↔
        k.codec.StatedSpec text.toList es) ∧
      ((∃ e, k.codec.readEntries text = .error e) ↔
        ∀ es, ¬ k.codec.StatedSpec text.toList es) := by
  refine ⟨k.ofReader_reader, fun text => ?_⟩
  have hOk : ∀ es, k.codec.readEntries text = .ok es ↔
      k.codec.StatedSpec text.toList es :=
    fun es => Codec.readEntries_eq_ok_iff k.plain_codec
  refine ⟨hOk, ?_⟩
  simp only [← hOk]
  cases k.codec.readEntries text with
  | ok es => simp
  | error e => simp

end ValueMix
