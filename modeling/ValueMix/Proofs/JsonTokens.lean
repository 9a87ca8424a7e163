import Mathlib

/-!
# JSON values and their tokens

A JSON text is a sequence of tokens: brackets, braces, commas, colons, strings,
numbers and three words. `JsonValue.tokens` are the tokens of a value. They
are read by a machine that looks at one token at a time and keeps the arrays
and objects around it on a stack. Whatever it has read is determined by its
state, so it accepts the tokens of values and nothing else.

## Main results

* `move?_spec` — a move adds one token to what has been read.
* `foldlM_move?_tokens` — the tokens of a value lead from a place where a value
  is due to the place behind it.
* `assemble?_eq_some_iff` — token lists are accepted exactly if they are the
  tokens of the value that is read.
-/

namespace ValueMix

/-- What a JSON text states. Numbers are kept as their literals, and objects
as lists of members in their order. -/
inductive JsonValue where
  | null
  | boolean (b : Bool)
  | number (literal : List Char)
  | text (characters : List Char)
  | array (items : List JsonValue)
  | object (members : List (List Char × JsonValue))

inductive JsonToken where
  | leftBracket
  | rightBracket
  | leftBrace
  | rightBrace
  | comma
  | colon
  | null
  | boolean (b : Bool)
  | number (literal : List Char)
  | text (characters : List Char)
  deriving DecidableEq

namespace JsonValue

/-! ## The tokens of values -/

mutual

/-- The tokens of a value. -/
def tokens : JsonValue → List JsonToken
  | .null => [.null]
  | .boolean b => [.boolean b]
  | .number literal => [.number literal]
  | .text cs => [.text cs]
  | .array [] => [.leftBracket, .rightBracket]
  | .array (v :: rest) =>
      .leftBracket :: (tokens v ++ (moreItems rest ++ [.rightBracket]))
  | .object [] => [.leftBrace, .rightBrace]
  | .object ((k, v) :: rest) =>
      .leftBrace :: .text k :: .colon ::
        (tokens v ++ (moreMembers rest ++ [.rightBrace]))

/-- The tokens of items that follow another one. -/
def moreItems : List JsonValue → List JsonToken
  | [] => []
  | v :: rest => .comma :: (tokens v ++ moreItems rest)

/-- The tokens of members that follow another one. -/
def moreMembers : List (List Char × JsonValue) → List JsonToken
  | [] => []
  | (k, v) :: rest =>
      .comma :: .text k :: .colon :: (tokens v ++ moreMembers rest)

end

theorem moreItems_append (vs ws : List JsonValue) :
    moreItems (vs ++ ws) = moreItems vs ++ moreItems ws := by
  induction vs with
  | nil => simp [moreItems]
  | cons v vs ih => simp [moreItems, ih]

theorem moreMembers_append (ms ns : List (List Char × JsonValue)) :
    moreMembers (ms ++ ns) = moreMembers ms ++ moreMembers ns := by
  induction ms with
  | nil => simp [moreMembers]
  | cons m ms ih => simp [moreMembers, ih]

/-! ## The machine -/

/-- An array or an object around the place that has been reached, with what is
complete in it. -/
inductive Frame where
  | items (before : List JsonValue)
  | members (before : List (List Char × JsonValue)) (key : List Char)

/-- What is due next. -/
inductive Focus where
  /-- A value. -/
  | value
  /-- The first item of an array, or its end. -/
  | firstItem
  /-- The first key of an object, or its end. -/
  | firstKey
  /-- The key behind a comma. -/
  | key (before : List (List Char × JsonValue))
  /-- The colon behind a key. -/
  | colon (before : List (List Char × JsonValue)) (key : List Char)
  /-- What follows a complete value. -/
  | done (v : JsonValue)

/-- What is due, and what is around it, the innermost first. -/
abbrev Place := Focus × List Frame

/-- The place behind the first token of a value. -/
def begin? : List Frame → JsonToken → Option Place
  | fs, .leftBracket => some (.firstItem, fs)
  | fs, .leftBrace => some (.firstKey, fs)
  | fs, .null => some (.done .null, fs)
  | fs, .boolean b => some (.done (.boolean b), fs)
  | fs, .number literal => some (.done (.number literal), fs)
  | fs, .text cs => some (.done (.text cs), fs)
  | _, _ => none

/-- The place behind a token that follows a complete value. -/
def continue? (v : JsonValue) : List Frame → JsonToken → Option Place
  | .items before :: fs, .comma => some (.value, .items (before ++ [v]) :: fs)
  | .items before :: fs, .rightBracket =>
      some (.done (.array (before ++ [v])), fs)
  | .members before k :: fs, .comma => some (.key (before ++ [(k, v)]), fs)
  | .members before k :: fs, .rightBrace =>
      some (.done (.object (before ++ [(k, v)])), fs)
  | _, _ => none

/-- The place behind a token, if the token can stand where it does. -/
def move? : Place → JsonToken → Option Place
  | (.value, fs), t => begin? fs t
  | (.firstItem, fs), .rightBracket => some (.done (.array []), fs)
  | (.firstItem, fs), t => begin? (.items [] :: fs) t
  | (.firstKey, fs), .rightBrace => some (.done (.object []), fs)
  | (.firstKey, fs), .text k => some (.colon [] k, fs)
  | (.key before, fs), .text k => some (.colon before k, fs)
  | (.colon before k, fs), .colon => some (.value, .members before k :: fs)
  | (.done v, fs), t => continue? v fs t
  | _, _ => none

/-- The value that a list of tokens states, if it is the list of some value. -/
def assemble? (ts : List JsonToken) : Option JsonValue :=
  match ts.foldlM move? (.value, []) with
  | some (.done v, []) => some v
  | _ => none

/-! ## Tokens of values are accepted -/

/-- A value does not begin with a closing bracket, so it is read as the first
item of an array as it is anywhere. -/
theorem foldlM_firstItem (v : JsonValue) (fs : List Frame)
    (ts : List JsonToken) :
    (v.tokens ++ ts).foldlM move? (.firstItem, fs) =
      (v.tokens ++ ts).foldlM move? (.value, .items [] :: fs) := by
  fun_cases tokens v <;> rfl

mutual

/-- The tokens of a value lead behind it. -/
theorem foldlM_move?_tokens (fs : List Frame) :
    ∀ (v : JsonValue) (ts : List JsonToken),
      (v.tokens ++ ts).foldlM move? (.value, fs) = ts.foldlM move? (.done v, fs)
  | .null, _ => rfl
  | .boolean _, _ => rfl
  | .number _, _ => rfl
  | .text _, _ => rfl
  | .array [], _ => rfl
  | .array (v :: rest), ts => by
      rw [tokens, List.cons_append, List.append_assoc, List.append_assoc,
        List.singleton_append]
      show List.foldlM move? (.firstItem, fs) _ = _
      rw [foldlM_firstItem, foldlM_move?_tokens _ v, foldlM_move?_items fs rest]
      rfl
  | .object [], _ => rfl
  | .object ((k, v) :: rest), ts => by
      rw [tokens, List.cons_append, List.cons_append, List.cons_append,
        List.append_assoc, List.append_assoc, List.singleton_append]
      show List.foldlM move? (.value, .members [] k :: fs) _ = _
      rw [foldlM_move?_tokens _ v, foldlM_move?_members fs rest]
      rfl

/-- The items that follow another one complete the array. -/
theorem foldlM_move?_items (fs : List Frame) : ∀ (rest : List JsonValue)
    {before : List JsonValue} {v : JsonValue} {ts : List JsonToken},
    (moreItems rest ++ JsonToken.rightBracket :: ts).foldlM move?
        (.done v, .items before :: fs) =
      ts.foldlM move? (.done (.array (before ++ v :: rest)), fs)
  | [], _, _, _ => rfl
  | w :: rest, before, v, ts => by
      rw [moreItems, List.cons_append, List.append_assoc]
      show List.foldlM move? (.value, .items (before ++ [v]) :: fs) _ = _
      rw [foldlM_move?_tokens _ w, foldlM_move?_items fs rest,
        List.append_assoc]
      rfl

/-- The members that follow another one complete the object. -/
theorem foldlM_move?_members (fs : List Frame) :
    ∀ (rest : List (List Char × JsonValue))
      {before : List (List Char × JsonValue)} {k : List Char} {v : JsonValue}
      {ts : List JsonToken},
      (moreMembers rest ++ JsonToken.rightBrace :: ts).foldlM move?
          (.done v, .members before k :: fs) =
        ts.foldlM move? (.done (.object (before ++ (k, v) :: rest)), fs)
  | [], _, _, _, _ => rfl
  | (l, w) :: rest, before, k, v, ts => by
      rw [moreMembers, List.cons_append, List.cons_append, List.cons_append,
        List.append_assoc]
      show List.foldlM move?
        (.value, .members (before ++ [(k, v)]) l :: fs) _ = _
      rw [foldlM_move?_tokens _ w, foldlM_move?_members fs rest,
        List.append_assoc]
      rfl

end

/-! ## Nothing else is accepted -/

/-- The tokens of an array up to the place of its next item. -/
def itemsFront : List JsonValue → List JsonToken
  | [] => [.leftBracket]
  | v :: rest => .leftBracket :: (v.tokens ++ (moreItems rest ++ [.comma]))

/-- The tokens of an object up to the place of its next key. -/
def membersFront : List (List Char × JsonValue) → List JsonToken
  | [] => [.leftBrace]
  | (k, v) :: rest =>
      .leftBrace :: .text k :: .colon ::
        (v.tokens ++ (moreMembers rest ++ [.comma]))

theorem itemsFront_concat (before : List JsonValue) (v : JsonValue) :
    itemsFront (before ++ [v]) = itemsFront before ++ v.tokens ++ [.comma] := by
  cases before with
  | nil => simp [itemsFront, moreItems]
  | cons w before => simp [itemsFront, moreItems, moreItems_append]

theorem tokens_array_concat (before : List JsonValue) (v : JsonValue) :
    (array (before ++ [v])).tokens =
      itemsFront before ++ v.tokens ++ [.rightBracket] := by
  cases before with
  | nil => simp [itemsFront, tokens, moreItems]
  | cons w before => simp [itemsFront, tokens, moreItems, moreItems_append]

theorem membersFront_concat (before : List (List Char × JsonValue))
    (k : List Char) (v : JsonValue) :
    membersFront (before ++ [(k, v)]) =
      membersFront before ++ [.text k, .colon] ++ v.tokens ++ [.comma] := by
  cases before with
  | nil => simp [membersFront, moreMembers]
  | cons m before => simp [membersFront, moreMembers, moreMembers_append]

theorem tokens_object_concat (before : List (List Char × JsonValue))
    (k : List Char) (v : JsonValue) :
    (object (before ++ [(k, v)])).tokens =
      membersFront before ++ [.text k, .colon] ++ v.tokens ++
        [.rightBrace] := by
  cases before with
  | nil => simp [membersFront, tokens, moreMembers]
  | cons m before =>
      simp [membersFront, tokens, moreMembers, moreMembers_append]

/-- The tokens from the beginning of an array or object to the value due in
it. -/
def Frame.front : Frame → List JsonToken
  | .items before => itemsFront before
  | .members before k => membersFront before ++ [.text k, .colon]

/-- The tokens from the beginning of the innermost array, object or value. -/
def Focus.front : Focus → List JsonToken
  | .value => []
  | .firstItem => [.leftBracket]
  | .firstKey => [.leftBrace]
  | .key before => membersFront before
  | .colon before k => membersFront before ++ [.text k]
  | .done v => v.tokens

/-- The tokens in front of all that is due at the inner end of some frames. -/
def around : List Frame → List JsonToken
  | [] => []
  | f :: fs => around fs ++ f.front

/-- All tokens that have been read at a place. -/
def passed (p : Place) : List JsonToken := around p.2 ++ p.1.front

theorem begin?_spec {fs : List Frame} {t : JsonToken} {q : Place}
    (h : begin? fs t = some q) : passed q = around fs ++ [t] := by
  unfold begin? at h
  split at h <;> cases h <;> rfl

theorem continue?_spec {v : JsonValue} {fs : List Frame} {t : JsonToken}
    {q : Place} (h : continue? v fs t = some q) :
    passed q = passed (.done v, fs) ++ [t] := by
  unfold continue? at h
  split at h <;> cases h <;>
    simp [passed, around, Frame.front, Focus.front, itemsFront_concat,
      tokens_array_concat, membersFront_concat, tokens_object_concat]

/-- A move adds its token to what has been read. -/
theorem move?_spec {p q : Place} {t : JsonToken} (h : move? p t = some q) :
    passed q = passed p ++ [t] := by
  unfold move? at h
  split at h
  · rw [begin?_spec h]
    simp [passed, Focus.front]
  · cases h
    simp [passed, Focus.front, tokens]
  · rw [begin?_spec h]
    simp [passed, around, Frame.front, Focus.front, itemsFront]
  · cases h
    simp [passed, Focus.front, tokens]
  · cases h
    simp [passed, Focus.front, membersFront]
  · cases h
    simp [passed, Focus.front]
  · cases h
    simp [passed, around, Frame.front, Focus.front]
  · exact continue?_spec h
  · cases h

theorem foldlM_move?_spec {p q : Place} {ts : List JsonToken}
    (h : ts.foldlM move? p = some q) : passed q = passed p ++ ts := by
  induction ts generalizing p with
  | nil =>
      cases h
      rw [List.append_nil]
  | cons t ts ih =>
      rw [List.foldlM_cons, Option.bind_eq_bind, Option.bind_eq_some_iff] at h
      obtain ⟨next, hMove, hRest⟩ := h
      rw [ih hRest, move?_spec hMove, List.append_assoc, List.singleton_append]

/-- The machine accepts the tokens of a value and states that value. -/
theorem assemble?_eq_some_iff {ts : List JsonToken} {v : JsonValue} :
    assemble? ts = some v ↔ ts = v.tokens := by
  constructor
  · intro h
    unfold assemble? at h
    split at h
    · rename_i w hRun
      cases h
      exact (foldlM_move?_spec hRun).symm
    · cases h
  · rintro rfl
    have hRun := foldlM_move?_tokens [] v []
    rw [List.append_nil] at hRun
    rw [assemble?, hRun]
    rfl

end JsonValue

end ValueMix
