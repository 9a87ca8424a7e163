import Mathlib
import ValueMix.Proofs.Splitting

/-!
# Texts by byte offsets

A program that holds its texts in UTF-8 cuts them at byte offsets. Such a cut
exists only inside the text and between two characters. The offsets here are
lengths of front parts, and a cut at the length of a front part is that part
and the rest, whatever the characters are.

## Main results

* `cut?_eq_some_iff`, `slice?_eq_some_iff` — which cuts exist.
* `isSome_cut?_iff_isValid` — they are the valid positions of a string.
* `offset?_of_mem` — a character is found behind the text before it.
* `firstByte?_eq_ascii_iff` — an ASCII byte is a character of its own.
-/

namespace ValueMix.Text

/-! ## Lengths -/

/-- The number of bytes that a text takes. -/
def byteLength (cs : List Char) : ℕ := (cs.map Char.utf8Size).sum

@[simp] theorem byteLength_nil : byteLength [] = 0 := rfl

@[simp] theorem byteLength_cons (c : Char) (cs : List Char) :
    byteLength (c :: cs) = c.utf8Size + byteLength cs := by
  simp [byteLength]

@[simp] theorem byteLength_append (xs ys : List Char) :
    byteLength (xs ++ ys) = byteLength xs + byteLength ys := by
  simp [byteLength]

theorem byteLength_toList (s : String) :
    byteLength s.toList = s.utf8ByteSize := by
  rw [← String.size_toByteArray, ← String.utf8Encode_toList, List.utf8Encode,
    List.size_toByteArray, List.length_flatMap]
  simp [byteLength]

/-- Where all characters are ASCII, bytes and characters are the same. -/
theorem byteLength_of_ascii {cs : List Char} (h : ∀ c ∈ cs, c.utf8Size = 1) :
    byteLength cs = cs.length := by
  rw [byteLength, List.map_congr_left h]
  simp

/-! ## Cuts -/

/-- A text cut behind its first `n` bytes. There is no cut past its end or
inside a character. -/
def cut? : List Char → ℕ → Option (List Char × List Char)
  | cs, 0 => some ([], cs)
  | [], _ + 1 => none
  | c :: cs, n + 1 =>
      if c.utf8Size ≤ n + 1 then
        (cut? cs (n + 1 - c.utf8Size)).map fun (front, back) =>
          (c :: front, back)
      else none

theorem cut?_append (front back : List Char) :
    cut? (front ++ back) (byteLength front) = some (front, back) := by
  induction front with
  | nil => cases back <;> rfl
  | cons c front ih =>
      have hPos := c.utf8Size_pos
      obtain ⟨n, hn⟩ : ∃ n, byteLength (c :: front) = n + 1 :=
        Nat.exists_eq_succ_of_ne_zero (by rw [byteLength_cons]; omega)
      have hRest : n + 1 - c.utf8Size = byteLength front := by
        rw [← hn, byteLength_cons, Nat.add_sub_cancel_left]
      have hFits : c.utf8Size ≤ n + 1 := by
        rw [← hn, byteLength_cons]
        omega
      rw [hn, List.cons_append, cut?, if_pos hFits, hRest, ih]
      rfl

/-- A cut exists behind every front part, and nowhere else. -/
theorem cut?_eq_some_iff {cs front back : List Char} {n : ℕ} :
    cut? cs n = some (front, back) ↔
      front ++ back = cs ∧ byteLength front = n := by
  constructor
  · intro h
    fun_induction cut? cs n generalizing front back with
    | case1 cs =>
        obtain ⟨rfl, rfl⟩ := Prod.mk.inj (Option.some.inj h)
        exact ⟨rfl, rfl⟩
    | case2 n => cases h
    | case3 c cs n hFits ih =>
        rw [Option.map_eq_some_iff] at h
        obtain ⟨⟨front', back'⟩, hCut, hEq⟩ := h
        obtain ⟨rfl, rfl⟩ := Prod.mk.inj hEq
        obtain ⟨hText, hLength⟩ := ih hCut
        rw [List.cons_append, hText, byteLength_cons, hLength]
        exact ⟨rfl, by omega⟩
    | case4 c cs n hInside => cases h
  · rintro ⟨rfl, rfl⟩
    exact cut?_append front back

/-- Texts are cut at the valid positions of the string that they make up. -/
theorem isSome_cut?_iff_isValid (s : String) (n : ℕ) :
    (cut? s.toList n).isSome ↔ (String.Pos.Raw.mk n).IsValid s := by
  rw [String.Pos.Raw.isValid_iff_exists_append, Option.isSome_iff_exists]
  constructor
  · rintro ⟨⟨front, back⟩, h⟩
    obtain ⟨hText, hLength⟩ := cut?_eq_some_iff.1 h
    refine ⟨String.ofList front, String.ofList back, ?_, ?_⟩
    · rw [← String.ofList_append, hText, String.ofList_toList]
    · rw [String.Pos.Raw.ext_iff, String.byteIdx_rawEndPos, ← byteLength_toList,
        String.toList_ofList, hLength]
  · rintro ⟨front, back, rfl, h⟩
    refine ⟨(front.toList, back.toList), cut?_eq_some_iff.2 ⟨?_, ?_⟩⟩
    · rw [String.toList_append]
    · rw [byteLength_toList]
      rw [String.Pos.Raw.ext_iff, String.byteIdx_rawEndPos] at h
      exact h.symm

/-! ## Slices -/

/-- The text between two byte offsets, if they are in order and both of them
are cuts. -/
def slice? (cs : List Char) (start stop : ℕ) : Option (List Char) := do
  let (front, _) ← cut? cs stop
  let (_, middle) ← cut? front start
  return middle

/-- A slice exists between the ends of two front parts, and nowhere else. -/
theorem slice?_eq_some_iff {cs middle : List Char} {start stop : ℕ} :
    slice? cs start stop = some middle ↔
      ∃ front back, cs = front ++ middle ++ back ∧ byteLength front = start ∧
        byteLength (front ++ middle) = stop := by
  simp only [slice?, Option.bind_eq_bind, Option.bind_eq_some_iff, Prod.exists,
    cut?_eq_some_iff, Option.pure_def, Option.some.injEq]
  constructor
  · rintro ⟨upTo, back, ⟨rfl, hStop⟩, front, _, ⟨rfl, hStart⟩, rfl⟩
    exact ⟨front, back, rfl, hStart, hStop⟩
  · rintro ⟨front, back, rfl, hStart, hStop⟩
    exact ⟨front ++ middle, back, ⟨rfl, hStop⟩, front, middle, ⟨rfl, hStart⟩,
      rfl⟩

/-- Inside of a character there is nothing to cut at. -/
example :
    slice? ['é', ']'] 1 2 = none ∧ slice? ['é', ']'] 2 3 = some [']'] := by
  decide

/-! ## Searches -/

/-- The byte offset of the first `sep`. -/
def offset? (sep : Char) : List Char → Option ℕ
  | [] => none
  | c :: cs => if c = sep then some 0 else (offset? sep cs).map (c.utf8Size + ·)

variable {sep : Char}

theorem offset?_of_not_mem {cs : List Char} (h : sep ∉ cs) :
    offset? sep cs = none := by
  induction cs with
  | nil => rfl
  | cons c cs ih =>
      have hc : c ≠ sep := fun hEq => h (hEq ▸ List.mem_cons_self)
      have hRest : sep ∉ cs := fun hMem => h (List.mem_cons_of_mem _ hMem)
      rw [offset?, if_neg hc, ih hRest]
      rfl

/-- The first `sep` is found behind the text before it. -/
theorem offset?_of_mem {cs : List Char} (h : sep ∈ cs) :
    offset? sep cs = some (byteLength (before sep cs)) := by
  induction cs with
  | nil => cases h
  | cons c cs ih =>
      by_cases hc : c = sep
      · simp [offset?, before, hc]
      · have hRest : sep ∈ cs := (List.mem_cons.1 h).resolve_left (Ne.symm hc)
        have hBefore : before sep (c :: cs) = c :: before sep cs := by
          simp [before, hc]
        rw [offset?, if_neg hc, ih hRest, hBefore, byteLength_cons]
        rfl

/-- The first byte of a text. -/
def firstByte? (cs : List Char) : Option UInt8 :=
  (cs.flatMap String.utf8EncodeChar).head?

private theorem ofNat_eq_ofNat_iff {m n : ℕ} (hm : m < 256) (hn : n < 256) :
    UInt8.ofNat m = UInt8.ofNat n ↔ m = n := by
  rw [← UInt8.toNat_inj, UInt8.toNat_ofNat_of_lt' hm,
    UInt8.toNat_ofNat_of_lt' hn]

/-- Bytes below 128 do not occur inside of longer characters. -/
theorem head?_utf8EncodeChar_eq_iff {a c : Char} (ha : a.val.toNat < 128) :
    (String.utf8EncodeChar c).head? = some a.toUInt8 ↔ c = a := by
  have hByte : a.toUInt8 = UInt8.ofNat a.val.toNat := rfl
  have hVal : c = a ↔ c.val.toNat = a.val.toNat := by
    rw [Char.ext_iff, UInt32.toNat_inj]
  have hMax : c.val.toNat < 0x110000 := by
    rcases c.valid with h | ⟨-, h⟩ <;> omega
  rw [hByte, hVal]
  simp only [String.utf8EncodeChar]
  generalize c.val.toNat = n at hMax
  generalize a.val.toNat = m at ha
  -- one case for every number of bytes
  split_ifs <;>
    simp (disch := omega) only [List.head?_cons, Option.some.injEq,
      ofNat_eq_ofNat_iff] <;>
    omega

/-- A text begins with an ASCII byte exactly if it begins with its character. -/
theorem firstByte?_eq_ascii_iff {a : Char} (ha : a.val.toNat < 128)
    {cs : List Char} :
    firstByte? cs = some a.toUInt8 ↔ cs.head? = some a := by
  cases cs with
  | nil => simp [firstByte?]
  | cons c cs =>
      rw [firstByte?, List.flatMap_cons, List.head?_append_of_ne_nil _
        String.utf8EncodeChar_ne_nil, head?_utf8EncodeChar_eq_iff ha,
        List.head?_cons, Option.some.injEq]

end ValueMix.Text
