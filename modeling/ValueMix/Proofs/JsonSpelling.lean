import Mathlib
import ValueMix.Proofs.BuiltIn
import ValueMix.Proofs.JsonTokens

/-!
# JSON texts

`JsonValue.Spelled` are the texts of a list of tokens, as the standard of JSON
has them: any blanks may stand between tokens, numbers have no leading zeros,
and a character of a string can be written in several ways. A scanner reads
such a text character by character. Together with the machine on tokens it
reads JSON texts and nothing else.

## Main results

* `scan?_of_spelled` — every text of some tokens is scanned as these tokens.
* `spelled_of_scan?` — a text that is scanned is a text of the tokens found.
* `read?_eq_some_iff` — a text is read as a value exactly if it is a text of
  the tokens of that value.
-/

namespace ValueMix.JsonValue

open ValueMix.Text

/-! ## The parts of tokens -/

/-- The blanks of JSON. -/
def isSpace (c : Char) : Bool := c = ' ' || c = '\n' || c = '\r' || c = '\t'

/-- Letters, digits and the marks of numbers. -/
def wordSet : CharSet :=
  ⟨[(48, 57), (65, 90), (97, 122), (43, 43), (45, 46)], false⟩

/-- Whether a character can stand in a number or in one of the three words. -/
def isWordChar (c : Char) : Bool := wordSet.contains c

/-- The pattern of number literals. -/
def numberPattern : Pattern :=
  .sequence
    [.optional (.char (.single '-')),
      .alt (.char (.single '0'))
        (.seq (.char ⟨[(49, 57)], false⟩) (.star (.char Spec.digitSet))),
      .optional (.sequence [.char (.single '.'), Spec.someDigits]),
      .optional (.sequence [.char ⟨[(101, 101), (69, 69)], false⟩,
        .optional (.char ⟨[(43, 43), (45, 45)], false⟩), Spec.someDigits])]

example :
    Pattern.ofText?
        "-?(?:0|[1-9][0-9]*)(?:\\.[0-9]+)?(?:[eE][+-]?[0-9]+)?" =
      some numberPattern := by decide +kernel

/-- The character that a letter behind a backslash stands for. -/
def shortEscape? (c : Char) : Option Char :=
  if c = '"' || c = '\\' || c = '/' then some c
  else if c = 'b' then some '\x08'
  else if c = 'f' then some '\x0c'
  else if c = 'n' then some '\n'
  else if c = 'r' then some '\r'
  else if c = 't' then some '\t'
  else none

/-- The number that four hexadecimal digits write. -/
def codeUnit? (ds : List Char) : Option ℕ :=
  if ds.length = 4 then readRadix 16 ds else none

/-- The first halves of surrogate pairs. -/
def isHigh (n : ℕ) : Bool := 0xd800 ≤ n && n < 0xdc00

/-- The second halves of surrogate pairs. -/
def isLow (n : ℕ) : Bool := 0xdc00 ≤ n && n < 0xe000

/-- The code point of a surrogate pair. -/
def pairCode (high low : ℕ) : ℕ :=
  0x10000 + (high - 0xd800) * 0x400 + (low - 0xdc00)

/-! ## Texts of tokens -/

/-- The ways to write characters between quotation marks. -/
inductive Body : List Char → List Char → Prop where
  | nil : Body [] []
  /-- As they are, but for quotation marks, backslashes and control
  characters. -/
  | plain {c : Char} {cs body : List Char} : 32 ≤ c.toNat → c ≠ '"' → c ≠ '\\' →
      Body cs body → Body (c :: cs) (c :: body)
  | short {e c : Char} {cs body : List Char} : shortEscape? e = some c →
      Body cs body → Body (c :: cs) ('\\' :: e :: body)
  | unit {ds : List Char} {c : Char} {cs body : List Char} :
      codeUnit? ds = some c.toNat → Body cs body →
      Body (c :: cs) ('\\' :: 'u' :: (ds ++ body))
  | pair {ds es : List Char} {high low : ℕ} {c : Char} {cs body : List Char} :
      codeUnit? ds = some high → isHigh high = true →
      codeUnit? es = some low → isLow low = true →
      c.toNat = pairCode high low → Body cs body →
      Body (c :: cs) ('\\' :: 'u' :: (ds ++ '\\' :: 'u' :: (es ++ body)))

/-- The tokens of a single character. -/
def mark? (c : Char) : Option JsonToken :=
  if c = '[' then some .leftBracket
  else if c = ']' then some .rightBracket
  else if c = '\x7b' then some .leftBrace
  else if c = '\x7d' then some .rightBrace
  else if c = ',' then some .comma
  else if c = ':' then some .colon
  else none

/-- The token of a run of word characters. -/
def word? (run : List Char) : Option JsonToken :=
  if run = ['n', 'u', 'l', 'l'] then some .null
  else if run = ['t', 'r', 'u', 'e'] then some (.boolean true)
  else if run = ['f', 'a', 'l', 's', 'e'] then some (.boolean false)
  else if numberPattern.accepts run then some (.number run)
  else none

/-- Whether a text does not begin with a word character. -/
def NoWord (cs : List Char) : Prop := ∀ c ∈ cs.head?, isWordChar c = false

/-- The texts of tokens. There may be blanks anywhere between tokens, and words
and numbers go on as far as they can. -/
inductive Spelled : List JsonToken → List Char → Prop where
  | nil : Spelled [] []
  | blank {c : Char} {ts : List JsonToken} {cs : List Char} :
      isSpace c = true → Spelled ts cs → Spelled ts (c :: cs)
  | mark {c : Char} {t : JsonToken} {ts : List JsonToken} {cs : List Char} :
      mark? c = some t → Spelled ts cs → Spelled (t :: ts) (c :: cs)
  | word {run : List Char} {t : JsonToken} {ts : List JsonToken}
      {cs : List Char} :
      word? run = some t → NoWord cs → Spelled ts cs →
      Spelled (t :: ts) (run ++ cs)
  | text {chars body : List Char} {ts : List JsonToken} {cs : List Char} :
      Body chars body → Spelled ts cs →
      Spelled (.text chars :: ts) ('"' :: (body ++ '"' :: cs))

/-! ## The scanner -/

/-- What the scanner has found of a token. -/
inductive Scan where
  /-- Nothing. -/
  | between
  /-- The first characters of a word or a number. -/
  | word (run : List Char)
  /-- A string up to here. -/
  | text (chars : List Char)
  /-- A string up to a backslash; the first half of a pair may be pending. -/
  | escape (chars : List Char) (high : Option ℕ)
  /-- A string up to some digits of a code unit. -/
  | unit (chars : List Char) (high : Option ℕ) (ds : List Char)
  /-- A string up to the first half of a pair. -/
  | half (chars : List Char) (high : ℕ)

namespace Scan

/-- What a character between two tokens begins. -/
def start? (c : Char) : Option (List JsonToken × Scan) :=
  if isSpace c then some ([], .between)
  else if c = '"' then some ([], .text [])
  else if isWordChar c then some ([], .word [c])
  else (mark? c).map fun t => ([t], .between)

/-- What a string comes to with one more code unit. -/
def takeUnit? (chars : List Char) (high : Option ℕ) (n : ℕ) : Option Scan :=
  match high with
  | none =>
      if isHigh n then some (.half chars n)
      else if isLow n then none
      else some (.text (chars ++ [Char.ofNat n]))
  | some h =>
      if isLow n then some (.text (chars ++ [Char.ofNat (pairCode h n)]))
      else none

/-- The tokens that a character completes, and what it leaves unfinished. -/
def step? : Scan → Char → Option (List JsonToken × Scan)
  | between, c => start? c
  | word run, c =>
      if isWordChar c then some ([], .word (run ++ [c]))
      else do
        let t ← word? run
        let (ts, s) ← start? c
        return (t :: ts, s)
  | text chars, c =>
      if c = '"' then some ([.text chars], .between)
      else if c = '\\' then some ([], .escape chars none)
      else if 32 ≤ c.toNat then some ([], .text (chars ++ [c]))
      else none
  | escape chars high, c =>
      if c = 'u' then some ([], .unit chars high [])
      else if high.isSome then none
      else (shortEscape? c).map fun d => ([], .text (chars ++ [d]))
  | unit chars high ds, c =>
      if ds.length = 3 then do
        let n ← readRadix 16 (ds ++ [c])
        let s ← takeUnit? chars high n
        return ([], s)
      else some ([], .unit chars high (ds ++ [c]))
  | half chars high, c =>
      if c = '\\' then some ([], .escape chars (some high)) else none

/-- The tokens that the end of the text completes. -/
def finish? : Scan → Option (List JsonToken)
  | between => some []
  | word run => (word? run).map ([·])
  | _ => none

end Scan

/-- The tokens of a text, from what has been found of the first one. -/
def scan? : Scan → List Char → Option (List JsonToken)
  | s, [] => s.finish?
  | s, c :: cs => do
      let (ts, s') ← s.step? c
      let more ← scan? s' cs
      return ts ++ more

/-- Reads a JSON text. -/
def read? (cs : List Char) : Option JsonValue :=
  (scan? .between cs).bind assemble?

/-! ## Every text of some tokens is scanned -/

theorem scan?_cons {s s' : Scan} {c : Char} {ts : List JsonToken}
    (h : s.step? c = some (ts, s')) (cs : List Char) :
    scan? s (c :: cs) = (scan? s' cs).map (ts ++ ·) := by
  rw [scan?, h]
  show (scan? s' cs).bind (fun more => some (ts ++ more)) = _
  cases scan? s' cs <;> rfl

/-- A step that completes no token goes on from what it leaves. -/
theorem scan?_cons_nil {s s' : Scan} {c : Char} (h : s.step? c = some ([], s'))
    (cs : List Char) : scan? s (c :: cs) = scan? s' cs := by
  rw [scan?_cons h]
  cases scan? s' cs <;> rfl

/-- Four digits are taken as a code unit. -/
theorem scan?_codeUnit {ds : List Char} {n : ℕ} (h : codeUnit? ds = some n)
    (chars : List Char) (high : Option ℕ) (cs : List Char) :
    scan? (.unit chars high []) (ds ++ cs) =
      (Scan.takeUnit? chars high n).bind fun s => scan? s cs := by
  unfold codeUnit? at h
  split at h
  · rename_i hLength
    match ds, hLength with
    | [a, b, c, d], _ =>
        have hLast : Scan.step? (.unit chars high [a, b, c]) d =
            (Scan.takeUnit? chars high n).bind fun s => some ([], s) := by
          show (readRadix 16 [a, b, c, d]).bind _ = _
          rw [h]
          rfl
        simp only [List.cons_append, List.nil_append]
        rw [scan?_cons_nil rfl, scan?_cons_nil rfl, scan?_cons_nil rfl]
        cases hTake : Scan.takeUnit? chars high n with
        | none =>
            rw [hTake] at hLast
            show scan? (.unit chars high [a, b, c]) (d :: cs) = none
            rw [scan?, hLast]
            rfl
        | some s =>
            rw [hTake] at hLast
            exact scan?_cons_nil hLast cs
  · cases h

/-- No half of a surrogate pair is a character. -/
theorem toNat_not_surrogate (c : Char) :
    c.toNat < 0xd800 ∨ 0xdfff < c.toNat := by
  rcases c.valid with h | ⟨h, -⟩
  · exact .inl h
  · exact .inr h

theorem isHigh_toNat (c : Char) : isHigh c.toNat = false := by
  have hValid := toNat_not_surrogate c
  simp only [isHigh, Bool.and_eq_false_iff, decide_eq_false_iff_not]
  omega

theorem isLow_toNat (c : Char) : isLow c.toNat = false := by
  have hValid := toNat_not_surrogate c
  simp only [isLow, Bool.and_eq_false_iff, decide_eq_false_iff_not]
  omega

/-- A string is scanned up to its closing quotation mark. -/
theorem scan?_body {cs body : List Char} (h : Body cs body)
    (chars rest : List Char) :
    scan? (.text chars) (body ++ '"' :: rest) =
      (scan? .between rest).map (JsonToken.text (chars ++ cs) :: ·) := by
  induction h generalizing chars with
  | nil =>
      have hStep : Scan.step? (.text chars) '"' =
          some ([.text chars], .between) := by
        simp [Scan.step?]
      rw [List.nil_append, List.append_nil, scan?_cons hStep]
      rfl
  | @plain c cs body hLow hQuote hBackslash _ ih =>
      have hStep : Scan.step? (.text chars) c =
          some ([], .text (chars ++ [c])) := by
        simp [Scan.step?, hLow, hQuote, hBackslash]
      rw [List.cons_append, scan?_cons_nil hStep, ih, List.append_assoc]
      rfl
  | @short e c cs body hEscape _ ih =>
      have hNotUnit : e ≠ 'u' := by
        rintro rfl
        cases hEscape
      have hStep : Scan.step? (.escape chars none) e =
          some ([], .text (chars ++ [c])) := by
        simp [Scan.step?, hNotUnit, hEscape]
      rw [List.cons_append, List.cons_append, scan?_cons_nil rfl,
        scan?_cons_nil hStep, ih, List.append_assoc]
      rfl
  | @unit ds c cs body hUnit _ ih =>
      have hTake : Scan.takeUnit? chars none c.toNat =
          some (.text (chars ++ [c])) := by
        simp [Scan.takeUnit?, isHigh_toNat, isLow_toNat, Char.ofNat_toNat]
      rw [List.cons_append, List.cons_append, List.append_assoc,
        scan?_cons_nil rfl, scan?_cons_nil rfl, scan?_codeUnit hUnit, hTake,
        Option.bind_some, ih, List.append_assoc]
      rfl
  | @pair ds es high low c cs body hFirst hHigh hSecond hLow hCode _ ih =>
      have hTakeHigh : Scan.takeUnit? chars none high =
          some (.half chars high) := by
        simp [Scan.takeUnit?, hHigh]
      have hTakeLow : Scan.takeUnit? chars (some high) low =
          some (.text (chars ++ [c])) := by
        simp [Scan.takeUnit?, hLow, ← hCode, Char.ofNat_toNat]
      rw [List.cons_append, List.cons_append, List.append_assoc,
        List.cons_append, List.cons_append, List.append_assoc,
        scan?_cons_nil rfl, scan?_cons_nil rfl, scan?_codeUnit hFirst,
        hTakeHigh, Option.bind_some, scan?_cons_nil rfl, scan?_cons_nil rfl,
        scan?_codeUnit hSecond, hTakeLow, Option.bind_some, ih,
        List.append_assoc]
      rfl

/-! ## Words -/

/-- A set lies in another one if each of its ranges lies in one of the other. -/
theorem contains_of_ranges {s t : CharSet} (hs : s.negated = false)
    (ht : t.negated = false)
    (h : ∀ r ∈ s.ranges, ∃ q ∈ t.ranges, q.1 ≤ r.1 ∧ r.2 ≤ q.2) {c : Char}
    (hc : s.contains c = true) : t.contains c = true := by
  simp only [CharSet.contains, hs, ht, Bool.bne_false, List.any_eq_true,
    Bool.and_eq_true, decide_eq_true_eq] at hc ⊢
  obtain ⟨r, hr, hLow, hHigh⟩ := hc
  obtain ⟨q, hq, hStart, hStop⟩ := h r hr
  exact ⟨q, hq, hStart.trans hLow, hHigh.trans hStop⟩

theorem within_numberPattern :
    Pattern.Within (fun c => isWordChar c = true) numberPattern := by
  have hSet : ∀ s : CharSet, s.negated = false →
      (∀ r ∈ s.ranges, ∃ q ∈ wordSet.ranges, q.1 ≤ r.1 ∧ r.2 ≤ q.2) →
      ∀ c, s.contains c = true → isWordChar c = true :=
    fun s hs h c hc => contains_of_ranges hs rfl h hc
  have hDigits := hSet Spec.digitSet rfl (by decide)
  have hPoint := hSet (.single '.') rfl (by decide)
  refine ⟨⟨hSet _ rfl (by decide), trivial⟩,
    ⟨hSet _ rfl (by decide), ?_, hDigits⟩,
    ⟨⟨hPoint, hDigits, hDigits⟩, trivial⟩,
    ⟨⟨hSet _ rfl (by decide), ?_⟩, trivial⟩⟩
  · exact hSet _ rfl (by decide)
  · exact ⟨⟨hSet _ rfl (by decide), trivial⟩, hDigits, hDigits⟩

/-- Words and numbers are runs of word characters. -/
theorem word?_spec {run : List Char} {t : JsonToken} (h : word? run = some t) :
    run ≠ [] ∧ ∀ c ∈ run, isWordChar c = true := by
  unfold word? at h
  split_ifs at h with hNull hTrue hFalse hNumber
  · subst hNull
    exact ⟨List.cons_ne_nil _ _, List.all_eq_true.1 (by decide)⟩
  · subst hTrue
    exact ⟨List.cons_ne_nil _ _, List.all_eq_true.1 (by decide)⟩
  · subst hFalse
    exact ⟨List.cons_ne_nil _ _, List.all_eq_true.1 (by decide)⟩
  · have hMatches := Pattern.accepts_iff_matches.1 hNumber
    refine ⟨?_, hMatches.forall_mem within_numberPattern⟩
    rintro rfl
    have hNullable : numberPattern.nullable = false := by decide
    rw [← Pattern.nullable_iff, hNullable] at hMatches
    cases hMatches

/-- A run of word characters is scanned up to its end. -/
theorem scan?_word {run cs : List Char} {t : JsonToken} (acc : List Char)
    (hRun : ∀ c ∈ run, isWordChar c = true)
    (hWord : word? (acc ++ run) = some t) (hEnd : NoWord cs) :
    scan? (.word acc) (run ++ cs) = (scan? .between cs).map (t :: ·) := by
  induction run generalizing acc with
  | nil =>
      rw [List.append_nil] at hWord
      cases cs with
      | nil =>
          show (word? acc).map ([·]) = _
          rw [hWord]
          rfl
      | cons c cs =>
          have hc : isWordChar c = false := hEnd c rfl
          rw [List.nil_append, scan?, scan?]
          simp only [Scan.step?, hc, hWord]
          cases Scan.start? c <;> simp
  | cons c run ih =>
      have hStep : Scan.step? (.word acc) c =
          some ([], .word (acc ++ [c])) := by
        simp [Scan.step?, hRun c List.mem_cons_self]
      rw [List.cons_append, scan?_cons_nil hStep]
      refine ih (acc ++ [c]) (fun d hd => hRun d (List.mem_cons_of_mem c hd)) ?_
      rw [List.append_assoc]
      exact hWord

/-! ## Whole texts -/

theorem step?_of_wordChar {c : Char} (h : isWordChar c = true) :
    Scan.step? .between c = some ([], .word [c]) := by
  have hSpace : isSpace c = false := by
    by_contra hSpace
    simp only [isSpace, Bool.not_eq_false, Bool.or_eq_true,
      decide_eq_true_eq] at hSpace
    rcases hSpace with ((rfl | rfl) | rfl) | rfl <;> revert h <;> decide
  have hQuote : c ≠ '"' := by
    rintro rfl
    revert h
    decide
  simp [Scan.step?, Scan.start?, hSpace, hQuote, h]

/-- Marks are neither blanks nor parts of words, and begin no string. -/
theorem mark?_spec {c : Char} {t : JsonToken} (h : mark? c = some t) :
    isSpace c = false ∧ c ≠ '"' ∧ isWordChar c = false := by
  have hMark : c ∈ ['[', ']', '\x7b', '\x7d', ',', ':'] := by
    unfold mark? at h
    split_ifs at h <;> simp [*]
  simp only [List.mem_cons, List.not_mem_nil, or_false] at hMark
  rcases hMark with rfl | rfl | rfl | rfl | rfl | rfl <;> decide

theorem step?_of_mark {c : Char} {t : JsonToken} (h : mark? c = some t) :
    Scan.step? .between c = some ([t], .between) := by
  simp [Scan.step?, Scan.start?, mark?_spec h, h]

/-- A text of tokens is scanned as these tokens. -/
theorem scan?_of_spelled {ts : List JsonToken} {cs : List Char}
    (h : Spelled ts cs) :
    scan? .between cs = some ts := by
  induction h with
  | nil => rfl
  | @blank c ts cs hc _ ih =>
      have hStep : Scan.step? .between c = some ([], .between) := if_pos hc
      rw [scan?_cons_nil hStep, ih]
  | @mark c t ts cs hc _ ih =>
      rw [scan?_cons (step?_of_mark hc), ih]
      rfl
  | @word run t ts cs hWord hEnd _ ih =>
      obtain ⟨hNe, hRun⟩ := word?_spec hWord
      obtain ⟨c, rest, rfl⟩ := List.exists_cons_of_ne_nil hNe
      obtain ⟨hc, hRest⟩ := List.forall_mem_cons.1 hRun
      rw [List.cons_append, scan?_cons_nil (step?_of_wordChar hc),
        scan?_word [c] hRest hWord hEnd, ih]
      rfl
  | @text chars body ts cs hBody _ ih =>
      have hStep : Scan.step? .between '"' = some ([], .text []) := by
        simp [Scan.step?, Scan.start?, isSpace]
      rw [scan?_cons_nil hStep, scan?_body hBody, ih]
      rfl

/-! ## Nothing else is scanned -/

theorem Body.append {cs ds front back : List Char} (h : Body cs front)
    (h' : Body ds back) : Body (cs ++ ds) (front ++ back) := by
  induction h with
  | nil => exact h'
  | plain hLow hQuote hBackslash _ ih => exact .plain hLow hQuote hBackslash ih
  | short hEscape _ ih => exact .short hEscape ih
  | unit hUnit _ ih =>
      rw [List.cons_append, List.cons_append, List.cons_append,
        List.append_assoc]
      exact .unit hUnit ih
  | pair hFirst hHigh hSecond hLow hCode _ ih =>
      simp only [List.cons_append, List.append_assoc]
      exact .pair hFirst hHigh hSecond hLow hCode ih

/-- Some digits, read behind a number `m`, write a number below that of `m + 1`
with zeros in their place. -/
theorem foldlM_radixDigit?_lt {base n m : ℕ} {ds : List Char}
    (h : ds.foldlM (fun n c => do
      let d ← radixDigit? c
      if d < base then some (base * n + d) else none) m = some n) :
    n < (m + 1) * base ^ ds.length := by
  induction ds generalizing m with
  | nil =>
      cases h
      simp
  | cons c ds ih =>
      rw [List.foldlM_cons, Option.bind_eq_bind, Option.bind_eq_some_iff] at h
      obtain ⟨next, hNext, hRest⟩ := h
      rw [Option.bind_eq_some_iff] at hNext
      obtain ⟨d, -, hd⟩ := hNext
      split at hd
      · cases hd
        have hDigit : base * m + d + 1 ≤ (m + 1) * base := by
          rw [Nat.add_mul, Nat.one_mul, Nat.mul_comm m base]
          omega
        calc n < (base * m + d + 1) * base ^ ds.length := ih hRest
          _ ≤ (m + 1) * base * base ^ ds.length := Nat.mul_le_mul_right _ hDigit
          _ = (m + 1) * base ^ (c :: ds).length := by
              rw [List.length_cons, Nat.pow_succ', Nat.mul_assoc]
      · cases hd

/-- Four digits write a number below `2 ^ 16`. -/
theorem codeUnit?_lt {ds : List Char} {n : ℕ} (h : codeUnit? ds = some n) :
    n < 0x10000 := by
  unfold codeUnit? at h
  split at h
  · rename_i hLength
    have hBound := foldlM_radixDigit?_lt h
    rw [hLength] at hBound
    omega
  · cases h

namespace Scan

/-- The text of a pending first half. -/
inductive Pending : Option ℕ → List Char → Prop where
  | none : Pending none []
  | some {high : ℕ} {ds : List Char} : codeUnit? ds = Option.some high →
      isHigh high = true → Pending (Option.some high) ('\\' :: 'u' :: ds)

/-- The texts of what the scanner has found of a token. -/
inductive Begun : Scan → List Char → Prop where
  | between : Begun .between []
  | word {run : List Char} : Begun (.word run) run
  | text {chars body : List Char} : Body chars body →
      Begun (.text chars) ('"' :: body)
  | escape {chars body half : List Char} {high : Option ℕ} : Body chars body →
      Pending high half →
      Begun (.escape chars high) ('"' :: (body ++ (half ++ ['\\'])))
  | unit {chars body half ds : List Char} {high : Option ℕ} : Body chars body →
      Pending high half → ds.length ≤ 3 →
      Begun (.unit chars high ds) ('"' :: (body ++ (half ++ '\\' :: 'u' :: ds)))
  | half {chars body half : List Char} {high : ℕ} : Body chars body →
      Pending (Option.some high) half →
      Begun (.half chars high) ('"' :: (body ++ half))

/-- Behind a step, `front` has been found of the next token, and what precedes
it is a text of the tokens that the step completes. -/
def Completes (front : List Char) (ts : List JsonToken) (s : Scan) : Prop :=
  ∃ next, Begun s next ∧ ∀ more rest, Spelled more (next ++ rest) →
    Spelled (ts ++ more) (front ++ rest)

/-- A step that completes nothing has found one more character. -/
theorem completes_nil {front : List Char} {s : Scan} (h : Begun s front) :
    Completes front [] s :=
  ⟨front, h, fun _ _ hMore => hMore⟩

theorem start?_spec {c : Char} {ts : List JsonToken} {s : Scan}
    (h : start? c = some (ts, s)) : Completes [c] ts s := by
  unfold start? at h
  split_ifs at h with hSpace hQuote hWord
  · cases h
    exact ⟨[], .between, fun _ _ hMore => .blank hSpace hMore⟩
  · cases h
    rw [hQuote]
    exact completes_nil (.text .nil)
  · cases h
    exact completes_nil .word
  · rw [Option.map_eq_some_iff] at h
    obtain ⟨t, hMark, hEq⟩ := h
    cases hEq
    exact ⟨[], .between, fun _ _ hMore => .mark hMark hMore⟩

/-- A code unit goes on with the string, or waits for its second half. -/
theorem takeUnit?_spec {chars body half ds : List Char} {high : Option ℕ}
    {n : ℕ} {s : Scan} (hBody : Body chars body) (hHalf : Pending high half)
    (hUnit : codeUnit? ds = some n) (h : takeUnit? chars high n = some s) :
    Begun s ('"' :: (body ++ (half ++ '\\' :: 'u' :: ds))) := by
  have hLt := codeUnit?_lt hUnit
  cases hHalf with
  | none =>
      simp only [takeUnit?] at h
      split_ifs at h with hHigh hLow
      · cases h
        exact .half hBody (.some hUnit hHigh)
      · cases h
        have hValid : n.isValidChar := by
          simp only [isHigh, isLow, Bool.and_eq_true,
            decide_eq_true_eq] at hHigh hLow
          unfold Nat.isValidChar
          omega
        have hChar : (Char.ofNat n).toNat = n := by
          rw [Char.toNat_ofNat, if_pos hValid]
        have hOne := Body.unit (by rw [hUnit, hChar]) Body.nil
        rw [List.append_nil] at hOne
        exact .text (hBody.append hOne)
  | @some high es hFirst hHigh =>
      simp only [takeUnit?] at h
      split_ifs at h with hLow
      cases h
      have hValid : (pairCode high n).isValidChar := by
        simp only [isHigh, isLow, Bool.and_eq_true,
          decide_eq_true_eq] at hHigh hLow
        unfold Nat.isValidChar pairCode
        omega
      have hChar : (Char.ofNat (pairCode high n)).toNat = pairCode high n := by
        rw [Char.toNat_ofNat, if_pos hValid]
      have hOne := Body.pair hFirst hHigh hUnit hLow hChar Body.nil
      rw [List.append_nil] at hOne
      exact .text (hBody.append hOne)

/-- A step completes tokens of the text that it has found. -/
theorem step?_spec {s s' : Scan} {front : List Char} {c : Char}
    {ts : List JsonToken}
    (hBegun : Begun s front) (h : s.step? c = some (ts, s')) :
    Completes (front ++ [c]) ts s' := by
  cases hBegun with
  | between => exact start?_spec h
  | @word run =>
      simp only [step?] at h
      split_ifs at h with hc
      · cases h
        exact completes_nil .word
      · rw [Option.bind_eq_bind, Option.bind_eq_some_iff] at h
        obtain ⟨t, hWord, hRest⟩ := h
        rw [Option.bind_eq_bind, Option.bind_eq_some_iff] at hRest
        obtain ⟨⟨ts', s''⟩, hStart, hEq⟩ := hRest
        cases hEq
        obtain ⟨next, hNext, hSpelled⟩ := start?_spec hStart
        refine ⟨next, hNext, fun more rest hMore => ?_⟩
        rw [List.append_assoc]
        refine .word hWord ?_ (hSpelled more rest hMore)
        intro d hd
        cases hd
        exact Bool.eq_false_iff.2 hc
  | @text chars body hBody =>
      simp only [step?] at h
      split_ifs at h with hQuote hBackslash hLow
      · cases h
        refine ⟨[], .between, fun more rest hMore => ?_⟩
        rw [hQuote, List.append_assoc]
        exact .text hBody hMore
      · cases h
        rw [hBackslash]
        exact completes_nil (.escape hBody .none)
      · cases h
        exact completes_nil
          (.text (hBody.append (.plain hLow hQuote hBackslash .nil)))
  | @escape chars body half high hBody hHalf =>
      simp only [step?] at h
      split_ifs at h with hUnit hHigh
      · cases h
        have hFront : Begun (.unit chars high []) _ :=
          .unit hBody hHalf (by decide)
        rw [hUnit]
        simpa using completes_nil hFront
      · rw [Option.map_eq_some_iff] at h
        obtain ⟨d, hEscape, hEq⟩ := h
        cases hEq
        cases hHalf with
        | none =>
            have hFront := Begun.text (hBody.append (.short hEscape .nil))
            simpa using completes_nil hFront
        | some _ _ => simp at hHigh
  | @unit chars body half ds high hBody hHalf hLength =>
      simp only [step?] at h
      split_ifs at h with hThree
      · rw [Option.bind_eq_bind, Option.bind_eq_some_iff] at h
        obtain ⟨n, hRead, hRest⟩ := h
        rw [Option.bind_eq_bind, Option.bind_eq_some_iff] at hRest
        obtain ⟨s'', hTake, hEq⟩ := hRest
        cases hEq
        have hUnit : codeUnit? (ds ++ [c]) = some n := by
          rw [codeUnit?, if_pos (by simp [hThree]), hRead]
        simpa using completes_nil (takeUnit?_spec hBody hHalf hUnit hTake)
      · cases h
        have hFront : Begun (.unit chars high (ds ++ [c])) _ :=
          .unit hBody hHalf
            (by rw [List.length_append, List.length_singleton]; omega)
        simpa using completes_nil hFront
  | @half chars body half high hBody hHalf =>
      simp only [step?] at h
      split_ifs at h with hBackslash
      cases h
      rw [hBackslash]
      simpa using completes_nil (Begun.escape hBody hHalf)

end Scan

/-- Whatever is scanned is a text of the tokens found. -/
theorem spelled_of_begun {s : Scan} {front cs : List Char} {ts : List JsonToken}
    (hBegun : s.Begun front) (h : scan? s cs = some ts) :
    Spelled ts (front ++ cs) := by
  induction cs generalizing s front ts with
  | nil =>
      cases hBegun with
      | between =>
          cases h
          exact .nil
      | @word run =>
          rw [scan?, Scan.finish?, Option.map_eq_some_iff] at h
          obtain ⟨t, hWord, rfl⟩ := h
          exact .word hWord nofun .nil
      | text _ => cases h
      | escape _ _ => cases h
      | unit _ _ _ => cases h
      | half _ _ => cases h
  | cons c cs ih =>
      rw [scan?, Option.bind_eq_bind, Option.bind_eq_some_iff] at h
      obtain ⟨⟨now, s'⟩, hStep, hRest⟩ := h
      rw [Option.bind_eq_bind, Option.bind_eq_some_iff] at hRest
      obtain ⟨more, hMore, hEq⟩ := hRest
      cases hEq
      obtain ⟨next, hNext, hSpelled⟩ := Scan.step?_spec hBegun hStep
      have hText := hSpelled more cs (ih hNext hMore)
      rwa [List.append_assoc] at hText

theorem spelled_of_scan? {cs : List Char} {ts : List JsonToken}
    (h : scan? .between cs = some ts) : Spelled ts cs :=
  spelled_of_begun .between h

/-- **The reader of JSON.** It reads the texts of values and nothing else, and
every text of a value is read as that value. -/
theorem read?_eq_some_iff {cs : List Char} {v : JsonValue} :
    read? cs = some v ↔ Spelled v.tokens cs := by
  rw [read?, Option.bind_eq_some_iff]
  constructor
  · rintro ⟨ts, hScan, hAssemble⟩
    rw [assemble?_eq_some_iff] at hAssemble
    rw [← hAssemble]
    exact spelled_of_scan? hScan
  · intro h
    exact ⟨v.tokens, scan?_of_spelled h, assemble?_eq_some_iff.2 rfl⟩

end ValueMix.JsonValue
