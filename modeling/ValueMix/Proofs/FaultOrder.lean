import Mathlib
import ValueMix.Proofs.Refusals
import ValueMix.Proofs.Sessions

/-!
# Which fault is reported

A text can have several faults at once: brackets that do not match, pieces that
are malformed, tokens without a value, shares that no builder takes. Reading
goes through all pieces before it looks at any share, and through each of them
from the left, so every text has one fault that is reported.

## Main results

* `readShare_of_fault`, `readEntry_of_fault` — what is reported about a piece.
* `exists_share_or_fault`, `exists_readEntry_or_fault` — a piece that is not
  read has such a fault.
* `read_outcome` — the outcome of reading a text, by the order of its faults.
-/

namespace ValueMix

open ValueMix.Number ValueMix.Text

namespace Codec

variable {α : Type} {c : Codec α}

/-! ## Faults of a piece -/

/-- The first fault of the text in front of a colon, in a piece of which
`entry` is left without blanks. -/
inductive ShareFault (entry : List Char) : List Char → Malformation → Prop where
  | strayText {number gap : List Char} :
      '%' ∉ number → ¬ Blank gap →
      ShareFault entry (number ++ '%' :: gap) (.strayText (String.ofList entry))
  | percentage {number gap : List Char} :
      '%' ∉ number → Blank gap →
      (∀ n q, Padded n number → ¬ SignedNumeral n q) →
      ShareFault entry (number ++ '%' :: gap)
        (.invalidPercentage (String.ofList (trim number)))
  | weight {number : List Char} :
      '%' ∉ number → (∀ n q, Padded n number → ¬ SignedNumeral n q) →
      ShareFault entry number (.invalidWeight (String.ofList (trim number)))

/-- The first fault of a piece: it is empty, it has no value behind its colon,
its share has a fault, or its token has no value. -/
inductive EntryFault (c : Codec α) (input : String) (piece : List Char) :
    Error → Prop where
  | empty : Blank piece →
      EntryFault c input piece (.malformed input .emptyEntry)
  | missingValue {front back : List Char} :
      trim piece = front ++ ':' :: back → ':' ∉ front → Blank back →
      EntryFault c input piece
        (.malformed input (.missingValue (String.ofList (trim piece))))
  | share {front back : List Char} {fault : Malformation} :
      trim piece = front ++ ':' :: back → ':' ∉ front → ¬ Blank back →
      ShareFault (trim piece) front fault →
      EntryFault c input piece (.malformed input fault)
  | token {front back : List Char} {share : Share} :
      trim piece = front ++ ':' :: back → ':' ∉ front → ¬ Blank back →
      StatedShare front share → (∀ v, ¬ c.StatedValue (trim back) v) →
      EntryFault c input piece
        (.unrecognizedToken (String.ofList (trim back)) c.reader.pattern)
  | bareToken :
      ¬ Blank piece → ':' ∉ trim piece → (∀ v, ¬ c.StatedValue (trim piece) v) →
      EntryFault c input piece
        (.unrecognizedToken (String.ofList (trim piece)) c.reader.pattern)

/-! ## Numbers and tokens -/

theorem readNumber_of_not_numeral {input : String}
    {fault : String → Malformation} {cs : List Char}
    (h : ∀ n q, Padded n cs → ¬ SignedNumeral n q) :
    readNumber input fault cs =
      .error (.malformed input (fault (String.ofList (trim cs)))) := by
  cases hRead : readNumber input fault cs with
  | ok q =>
      obtain ⟨n, hPad, hNum⟩ := readNumber_eq_ok_iff.1 hRead
      exact absurd hNum (h n q hPad)
  | error e => rw [readNumber_error hRead]

theorem readToken_of_not_value {cs : List Char}
    (h : ∀ v, ¬ c.StatedValue cs v) :
    c.readToken cs =
      .error (.unrecognizedToken (String.ofList cs) c.reader.pattern) := by
  refine readToken_eq_error_iff.2 ⟨rfl, fun hMatch => ?_⟩
  cases hRead : c.reader.read cs with
  | none => rfl
  | some v => exact absurd ⟨hMatch, hRead⟩ (h v)

/-! ## Shares -/

/-- A fault in front of a colon is reported. -/
theorem readShare_of_fault {input : String} {entry front : List Char}
    {fault : Malformation} (h : ShareFault entry front fault) :
    readShare input entry front = .error (.malformed input fault) := by
  unfold readShare
  cases h with
  | @strayText number gap hNumber hGap =>
      rw [if_pos (by rw [List.contains_iff_mem]; simp), after_append hNumber,
        if_neg (mt isEmpty_trim_iff.1 hGap)]
      rfl
  | @percentage number gap hNumber hGap hNone =>
      rw [if_pos (by rw [List.contains_iff_mem]; simp), after_append hNumber,
        before_append hNumber,
        if_pos (isEmpty_trim_iff.2 hGap),
        readNumber_of_not_numeral hNone]
      rfl
  | weight hNumber hNone =>
      rw [if_neg (mt List.contains_iff_mem.1 hNumber),
        readNumber_of_not_numeral hNone]
      rfl

/-- Whatever stands in front of a colon is a share or has a fault. -/
theorem exists_share_or_fault (entry front : List Char) :
    (∃ share, StatedShare front share) ∨
      ∃ fault, ShareFault entry front fault := by
  by_cases hPercent : '%' ∈ front
  · rw [← before_append_after hPercent]
    have hNumber := not_mem_before '%' front
    by_cases hGap : Blank (after '%' front)
    · by_cases hNum : ∃ n q, Padded n (before '%' front) ∧ SignedNumeral n q
      · obtain ⟨n, q, hPad, hNum⟩ := hNum
        exact .inl ⟨_, .percentage hNum hPad hGap⟩
      · refine .inr ⟨_, .percentage hNumber hGap fun n q hPad hSigned => ?_⟩
        exact hNum ⟨n, q, hPad, hSigned⟩
    · exact .inr ⟨_, .strayText hNumber hGap⟩
  · by_cases hNum : ∃ n q, Padded n front ∧ SignedNumeral n q
    · obtain ⟨n, q, hPad, hNum⟩ := hNum
      exact .inl ⟨_, .weight hNum hPad⟩
    · refine .inr ⟨_, .weight hPercent fun n q hPad hSigned => ?_⟩
      exact hNum ⟨n, q, hPad, hSigned⟩

/-! ## Pieces -/

/-- Reading a piece whose first colon is known. -/
theorem readEntry_colon {input : String} {piece front back : List Char}
    (hTrim : trim piece = front ++ ':' :: back) (hFront : ':' ∉ front)
    (hBack : ¬ Blank back) :
    c.readEntry input piece = (do
      let share ← readShare input (trim piece) front
      let value ← c.readToken (trim back)
      return ⟨value, share⟩) := by
  unfold readEntry
  simp only [hTrim, before_append hFront, after_append hFront]
  rw [if_neg (by simp), if_pos (by simp),
    if_neg (mt isEmpty_trim_iff.1 hBack)]

/-- Reading a piece without a colon. -/
theorem readEntry_bare {input : String} {piece : List Char}
    (hPiece : ¬ Blank piece) (hColon : ':' ∉ trim piece) :
    c.readEntry input piece = (do
      let value ← c.readToken (trim piece)
      return ⟨value, .weighted 1⟩) := by
  unfold readEntry
  simp only
  rw [if_neg (mt isEmpty_trim_iff.1 hPiece),
    if_neg (mt List.contains_iff_mem.1 hColon)]

/-- The fault of a piece is reported. -/
theorem readEntry_of_fault {input : String} {piece : List Char} {err : Error}
    (h : EntryFault c input piece err) :
    c.readEntry input piece = .error err := by
  cases h with
  | empty hBlank =>
      unfold readEntry
      simp only
      rw [if_pos (isEmpty_trim_iff.2 hBlank)]
      rfl
  | missingValue hTrim hFront hBack =>
      unfold readEntry
      simp only [hTrim, after_append hFront]
      rw [if_neg (by simp), if_pos (by simp),
        if_pos (isEmpty_trim_iff.2 hBack)]
      rfl
  | share hTrim hFront hBack hFault =>
      rw [readEntry_colon hTrim hFront hBack, readShare_of_fault hFault]
      rfl
  | token hTrim hFront hBack hShare hNone =>
      rw [readEntry_colon hTrim hFront hBack, readShare_eq_ok_iff.2 hShare,
        readToken_of_not_value hNone]
      rfl
  | bareToken hPiece hColon hNone =>
      rw [readEntry_bare hPiece hColon, readToken_of_not_value hNone]
      rfl

/-- Every piece is read or has a fault. -/
theorem exists_readEntry_or_fault (c : Codec α) (input : String)
    (piece : List Char) :
    (∃ e, c.readEntry input piece = .ok e) ∨
      ∃ err, EntryFault c input piece err := by
  by_cases hPiece : Blank piece
  · exact .inr ⟨_, .empty hPiece⟩
  by_cases hColon : ':' ∈ trim piece
  · have hTrim := (before_append_after hColon).symm
    have hFront := not_mem_before ':' (trim piece)
    generalize before ':' (trim piece) = front at hTrim hFront
    generalize after ':' (trim piece) = back at hTrim
    by_cases hBack : Blank back
    · exact .inr ⟨_, .missingValue hTrim hFront hBack⟩
    rcases exists_share_or_fault (trim piece) front with
      ⟨s, hShare⟩ | ⟨f, hFault⟩
    · by_cases hValue : ∃ v, c.StatedValue (trim back) v
      · obtain ⟨v, hValue⟩ := hValue
        refine .inl ⟨⟨v, s⟩,
          (readEntry_of_colon hTrim hFront).2 ⟨hShare, ?_, hValue⟩⟩
        rwa [Ne, trim_eq_nil_iff]
      · exact .inr ⟨_, .token hTrim hFront hBack hShare (not_exists.1 hValue)⟩
    · exact .inr ⟨_, .share hTrim hFront hBack hFault⟩
  · by_cases hValue : ∃ v, c.StatedValue (trim piece) v
    · obtain ⟨v, hValue⟩ := hValue
      refine .inl ⟨⟨v, .weighted 1⟩, ?_⟩
      rw [readEntry_bare hPiece hColon, readToken_eq_ok_iff.2 hValue]
      rfl
    · exact .inr ⟨_, .bareToken hPiece hColon (not_exists.1 hValue)⟩

/-- What is reported about a piece is its fault. -/
theorem readEntry_eq_error_iff {input : String} {piece : List Char}
    {err : Error} :
    c.readEntry input piece = .error err ↔ EntryFault c input piece err := by
  constructor
  · intro h
    rcases exists_readEntry_or_fault c input piece with
      ⟨e, hRead⟩ | ⟨err', hFault⟩
    · rw [hRead] at h
      cases h
    · rw [readEntry_of_fault hFault] at h
      exact Except.error.inj h ▸ hFault
  · exact readEntry_of_fault

/-- The fault of a piece that is malformed names the whole text. -/
theorem EntryFault.input_eq {text input : String} {piece : List Char}
    {fault : Malformation}
    (h : EntryFault c text piece (.malformed input fault)) : input = text := by
  cases h with
  | empty _ => rfl
  | missingValue _ _ _ => rfl
  | share _ _ _ _ => rfl

/-! ## Whole texts -/

/-- What the entries of a text are read from: the text without the blanks
around it and without its brackets. -/
def body (text : String) : List Char := withoutBrackets (trim text.toList)

/-- The outcome of reading a text. A fault counts only if the text has none of
the kinds above it, and of several faults of a kind the leftmost one. -/
inductive Outcome (c : Codec α) (text : String) :
    Except Error (Distribution α) → Prop where
  /-- There is a bracket on one side only. -/
  | lopsided :
      Lopsided text.toList →
      Outcome c text (.error (.malformed text .unbalancedBrackets))
  /-- There are no entries. -/
  | blank :
      ¬ Lopsided text.toList → Blank (body text) →
      Outcome c text (.error .noEntries)
  /-- A piece has a fault, whatever the shares of the pieces in front of it. -/
  | piece {before after : List (List Char)} {piece : List Char} {err : Error} :
      ¬ Lopsided text.toList → ¬ Blank (body text) →
      pieces ',' (body text) = before ++ piece :: after →
      (∀ p ∈ before, ∃ e, c.StatedEntry p e) → EntryFault c text piece err →
      Outcome c text (.error err)
  /-- A share is out of range. -/
  | share {before after : List (Entry α)} {e : Entry α} {err : Error} :
      ¬ Lopsided text.toList → ¬ Blank (body text) →
      List.Forall₂ c.StatedEntry (pieces ',' (body text))
        (before ++ e :: after) →
      (∀ e' ∈ before, ∀ err', ¬ e'.share.OutOfRange err') →
      e.share.OutOfRange err → Outcome c text (.error err)
  /-- A builder takes every entry; what it creates from them decides. -/
  | built {es : List (Entry α)} :
      ¬ Lopsided text.toList → ¬ Blank (body text) →
      List.Forall₂ c.StatedEntry (pieces ',' (body text)) es →
      (∀ e ∈ es, ∀ err, ¬ e.share.OutOfRange err) →
      Outcome c text (Builder.session (es.map .add)).create

/-- Reading a text with brackets on both sides or on none. -/
theorem read_of_not_lopsided {text : String} (hSide : ¬ Lopsided text.toList) :
    c.read text =
      (if (trim (body text)).isEmpty then .error .noEntries
        else (pieces ',' (body text)).mapM (c.readEntry text)) >>=
        Distribution.ofEntries := by
  rw [read, readEntries_eq, if_neg hSide]
  rfl

/-- Reading a text that has a body. -/
theorem read_of_body {text : String} (hSide : ¬ Lopsided text.toList)
    (hBody : ¬ Blank (body text)) :
    c.read text =
      (pieces ',' (body text)).mapM (c.readEntry text) >>=
        Distribution.ofEntries := by
  rw [read_of_not_lopsided hSide, if_neg (mt isEmpty_trim_iff.1 hBody)]

/-- A text whose pieces all state entries is read as the list of these. -/
theorem read_of_stated (hc : c.Plain) {text : String} {es : List (Entry α)}
    (hSide : ¬ Lopsided text.toList) (hBody : ¬ Blank (body text))
    (h : List.Forall₂ c.StatedEntry (pieces ',' (body text)) es) :
    c.read text = Distribution.ofEntries es := by
  have hAll : (pieces ',' (body text)).mapM (c.readEntry text) = .ok es :=
    mapM_eq_ok_iff.2 (h.imp fun _ _ he => (readEntry_eq_ok_iff hc).2 he)
  rw [read_of_body hSide hBody, hAll]
  rfl

/-- A list of entries in range builds what a session with them creates. -/
theorem ofEntries_of_inRange {es : List (Entry α)}
    (h : ∀ e ∈ es, ∀ err, ¬ e.share.OutOfRange err) :
    Distribution.ofEntries es = (Builder.session (es.map .add)).create := by
  have hValid : ∀ e ∈ es, e.fault? = none := fun e he =>
    e.fault?_eq_none_iff.2 (h e he)
  rw [Distribution.ofEntries_of_valid hValid, Builder.session_add hValid]

/-- The outcome that the faults of a text decide is the one of reading. -/
theorem read_of_outcome (hc : c.Plain) {text : String}
    {r : Except Error (Distribution α)} (h : c.Outcome text r) :
    c.read text = r := by
  cases h with
  | lopsided hSide =>
      rw [read, readEntries_eq, if_pos hSide]
      rfl
  | blank hSide hBlank =>
      rw [read_of_not_lopsided hSide, if_pos (isEmpty_trim_iff.2 hBlank)]
      rfl
  | piece hSide hBody hPieces hBefore hFault =>
      have hFirst :
          (pieces ',' (body text)).mapM (c.readEntry text) = .error _ :=
        mapM_eq_error_iff.2 ⟨_, _, _, hPieces,
          fun p hp => (hBefore p hp).imp fun e he =>
            (readEntry_eq_ok_iff hc).2 he,
          readEntry_of_fault hFault⟩
      rw [read_of_body hSide hBody, hFirst]
      rfl
  | share hSide hBody hStated hBefore hShare =>
      rw [read_of_stated hc hSide hBody hStated]
      exact Distribution.ofEntries_of_outOfRange hBefore hShare
  | built hSide hBody hStated hRange =>
      rw [read_of_stated hc hSide hBody hStated]
      exact ofEntries_of_inRange hRange

/-- The faults of every text decide an outcome. -/
theorem exists_outcome (hc : c.Plain) (text : String) :
    ∃ r, c.Outcome text r := by
  by_cases hSide : Lopsided text.toList
  · exact ⟨_, .lopsided hSide⟩
  by_cases hBody : Blank (body text)
  · exact ⟨_, .blank hSide hBody⟩
  cases hAll : (pieces ',' (body text)).mapM (c.readEntry text) with
  | error err =>
      obtain ⟨before, piece, after, hPieces, hBefore, hFail⟩ :=
        mapM_eq_error_iff.1 hAll
      exact ⟨_, .piece hSide hBody hPieces
        (fun p hp => (hBefore p hp).imp fun e he =>
          (readEntry_eq_ok_iff hc).1 he)
        (readEntry_eq_error_iff.1 hFail)⟩
  | ok es =>
      have hStated : List.Forall₂ c.StatedEntry (pieces ',' (body text)) es :=
        (mapM_eq_ok_iff.1 hAll).imp fun _ _ he => (readEntry_eq_ok_iff hc).1 he
      cases hFault : es.findSome? Entry.fault? with
      | some err =>
          obtain ⟨before, e, after, rfl, hShare, hBefore⟩ :=
            List.findSome?_eq_some_iff.1 hFault
          exact ⟨_, .share hSide hBody hStated
            (fun e' he' => e'.fault?_eq_none_iff.1 (hBefore e' he'))
            ((e.fault?_eq_some_iff err).1 hShare)⟩
      | none =>
          exact ⟨_, .built hSide hBody hStated fun e he =>
            e.fault?_eq_none_iff.1 (List.findSome?_eq_none_iff.1 hFault e he)⟩

theorem read_eq_iff_outcome (hc : c.Plain) {text : String}
    {r : Except Error (Distribution α)} :
    c.read text = r ↔ c.Outcome text r := by
  constructor
  · rintro rfl
    obtain ⟨r, h⟩ := exists_outcome hc text
    exact (read_of_outcome hc h).symm ▸ h
  · exact read_of_outcome hc

/-- A malformation that is reported names the whole text. -/
theorem Outcome.input_eq {text input : String} {fault : Malformation}
    {r : Except Error (Distribution α)} (h : c.Outcome text r)
    (hr : r = .error (.malformed input fault)) : input = text := by
  cases h with
  | lopsided _ =>
      cases hr
      rfl
  | blank _ _ => cases hr
  | piece _ _ _ _ hFault =>
      cases hr
      exact hFault.input_eq
  | @share _ _ e _ _ _ _ _ hShare =>
      obtain ⟨v, share⟩ := e
      cases hr
      cases hShare
  | built _ _ _ _ => exact absurd ((Builder.create_eq_error_iff _ _).1 hr) id

end Codec

/-- **Which fault is reported.** For every kind and every text there is one
outcome, and `Codec.Outcome` says which: brackets come first, then an empty
body, then the leftmost piece that is malformed or has no value, then the
leftmost share out of range, then what a builder finds about all shares
together. Whatever is malformed is reported with the whole text. -/
theorem Kind.read_outcome (k : Kind) :
    Codec.ofReader k.reader = .ok k.codec ∧
    (∀ (text : String) (r : Except Error (Distribution k.Value)),
      k.codec.read text = r ↔ k.codec.Outcome text r) ∧
    ∀ (text input : String) (fault : Malformation),
      k.codec.read text = .error (.malformed input fault) → input = text := by
  refine ⟨k.ofReader_reader, ?_, ?_⟩
  · intro text r
    exact Codec.read_eq_iff_outcome k.plain_codec
  · intro text input fault h
    exact ((Codec.read_eq_iff_outcome k.plain_codec).1 rfl).input_eq h

/-- A missing value is reported although the weight in front of it is taken by
no builder and the token behind it has no value. -/
theorem Kind.read_outcome_missing_value :
    Kind.integer.codec.read "0:1, 2:, x" =
      .error (.malformed "0:1, 2:, x" (.missingValue "2:")) := by
  have hc := Kind.integer.plain_codec
  have hPieces : pieces ',' (Codec.body "0:1, 2:, x") =
      ["0:1".toList] ++ " 2:".toList :: [" x".toList] := by decide
  have hFirst : ∃ e, Kind.integer.codec.StatedEntry "0:1".toList e :=
    ⟨_, (Codec.readEntry_eq_ok_iff hc).1
      (show Kind.integer.codec.readEntry "0:1" _ = .ok ⟨_, _⟩ from rfl)⟩
  have hFault : Codec.EntryFault Kind.integer.codec "0:1, 2:, x" " 2:".toList
      (.malformed "0:1, 2:, x" (.missingValue "2:")) :=
    .missingValue (show trim " 2:".toList = ['2'] ++ ':' :: [] from rfl)
      (by decide) blank_nil
  refine ((Kind.read_outcome .integer).2.1 _ _).2
    (.piece (by decide) ?_ hPieces ?_ hFault)
  · exact fun hBlank => absurd (hBlank '0' (by decide)) (by decide)
  · intro p hp
    rwa [List.mem_singleton.1 hp]

end ValueMix
