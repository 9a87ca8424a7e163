import Mathlib
import ValueMix.Proofs.Catalogs

/-!
# Configured names

Names are ordered by their code points. The bytes of a text in UTF-8 are
ordered in the same way, as a character with a greater code point never has
smaller bytes. So building all definitions fails for the invalid name that is
the least by its bytes, and a single name is resolved as it is built among all
of them.

## Main results

* `utf8EncodeChar_append_lt` — the bytes of two characters, whatever follows.
* `utf8Bytes_lt_iff` — texts and their bytes are ordered alike.
* `buildAll_eq_error_iff_leastInvalid` — which rejection building all reports.
* `buildAll_resolve` — building all definitions and resolving single names.
-/

namespace ValueMix.Text

/-! ## Texts by their bytes -/

/-- The bytes of a text in UTF-8. -/
def utf8Bytes (s : String) : List UInt8 := s.toUTF8.data.toList

theorem utf8Bytes_eq (s : String) :
    utf8Bytes s = s.toList.flatMap String.utf8EncodeChar := by
  rw [utf8Bytes, String.toUTF8, ← String.utf8Encode_toList, List.utf8Encode,
    List.toList_data_toByteArray]

theorem ofNat_cons_lt_iff {m n : ℕ} (hm : m < 256) (hn : n < 256)
    (xs ys : List UInt8) :
    UInt8.ofNat m :: xs < UInt8.ofNat n :: ys ↔ m < n ∨ m = n ∧ xs < ys := by
  rw [List.cons_lt_cons_iff, UInt8.lt_iff_toNat_lt, ← UInt8.toNat_inj,
    UInt8.toNat_ofNat_of_lt' hm, UInt8.toNat_ofNat_of_lt' hn]

private theorem place_lt {m n : ℕ} (h : m < n) :
    m / 64 < n / 64 ∨ m / 64 = n / 64 ∧ m % 64 < n % 64 := by
  omega

/-- Numbers in base 64, with four places, are compared place by place. -/
theorem places_lt {m n : ℕ} (h : m < n) :
    m / 262144 < n / 262144 ∨ m / 262144 = n / 262144 ∧
      (m / 4096 % 64 < n / 4096 % 64 ∨ m / 4096 % 64 = n / 4096 % 64 ∧
        (m / 64 % 64 < n / 64 % 64 ∨ m / 64 % 64 = n / 64 % 64 ∧
          m % 64 < n % 64)) := by
  rcases place_lt h with h1 | ⟨h1, hLast⟩
  · rcases place_lt h1 with h2 | ⟨h2, hThird⟩
    · rw [Nat.div_div_eq_div_mul, Nat.div_div_eq_div_mul] at h2
      rcases place_lt h2 with h3 | ⟨h3, hSecond⟩
      · rw [Nat.div_div_eq_div_mul, Nat.div_div_eq_div_mul] at h3
        exact .inl h3
      · omega
    · omega
  · omega

/-- The bytes of a smaller character are smaller, whatever follows them. -/
theorem utf8EncodeChar_append_lt {c d : Char} (h : c < d) (xs ys : List UInt8) :
    String.utf8EncodeChar c ++ xs < String.utf8EncodeChar d ++ ys := by
  have hLt : c.val.toNat < d.val.toNat := h
  have hLast : d.val.toNat < 0x110000 := by
    rcases d.valid with h | ⟨-, h⟩ <;> omega
  have hPlaces := places_lt hLt
  simp only [String.utf8EncodeChar]
  generalize c.val.toNat = m at hLt hPlaces
  generalize d.val.toNat = n at hLt hLast hPlaces
  -- one case for every pair of byte counts
  split_ifs <;>
    simp (disch := omega) only [List.cons_append, List.nil_append,
      ofNat_cons_lt_iff, Nat.mod_eq_of_lt (a := m / 262144),
      Nat.mod_eq_of_lt (a := n / 262144), Nat.add_lt_add_iff_right,
      Nat.add_right_cancel_iff]
  all_goals omega

theorem flatMap_utf8EncodeChar_lt {cs ds : List Char} (h : cs < ds) :
    cs.flatMap String.utf8EncodeChar < ds.flatMap String.utf8EncodeChar := by
  induction cs generalizing ds with
  | nil =>
      cases ds with
      | nil => exact absurd h (List.lt_irrefl _)
      | cons d ds =>
          rw [List.flatMap_cons]
          obtain ⟨b, bs, hBytes⟩ :=
            List.exists_cons_of_ne_nil (String.utf8EncodeChar_ne_nil (c := d))
          rw [hBytes, List.cons_append]
          exact List.nil_lt_cons _ _
  | cons c cs ih =>
      cases ds with
      | nil => exact absurd h (List.not_lt_nil _)
      | cons d ds =>
          rw [List.flatMap_cons, List.flatMap_cons]
          rcases List.cons_lt_cons_iff.1 h with hHead | ⟨rfl, hTail⟩
          · exact utf8EncodeChar_append_lt hHead _ _
          · exact List.append_left_lt (ih hTail)

/-- Texts are ordered as their bytes are. -/
theorem utf8Bytes_lt_iff {s t : String} :
    utf8Bytes s < utf8Bytes t ↔ s < t := by
  have hMono : ∀ {a b : String}, a < b → utf8Bytes a < utf8Bytes b := by
    intro a b h
    rw [utf8Bytes_eq, utf8Bytes_eq]
    exact flatMap_utf8EncodeChar_lt (String.lt_iff_toList_lt.1 h)
  constructor
  · intro h
    rcases lt_trichotomy s t with hLt | rfl | hGt
    · exact hLt
    · exact absurd h (List.lt_irrefl _)
    · exact absurd (hMono hGt) (List.lt_asymm h)
  · exact hMono

end ValueMix.Text

namespace ValueMix.Config

open ValueMix.Text

variable {c : Config}

/-! ## All definitions -/

/-- The configured name with a definition that cannot be built, and the cause of
that, which of all such names has the least bytes. -/
structure LeastInvalid (c : Config) (name : String) (d : Definition)
    (cause : Error) : Prop where
  found : c.distributions.find? name = some d
  invalid : d.build = .error cause
  least : ∀ n e other, c.distributions.find? n = some e →
    e.build = .error other → utf8Bytes name ≤ utf8Bytes n

theorem leastInvalid_iff {name : String} {d : Definition} {cause : Error} :
    c.LeastInvalid name d cause ↔ c.FirstInvalid name d cause := by
  constructor
  · intro h
    refine ⟨h.found, h.invalid, fun n e hFound hLt => ?_⟩
    cases hBuild : e.build with
    | ok m => exact ⟨m, rfl⟩
    | error other =>
        have hLe := h.least n e other hFound hBuild
        exact absurd (utf8Bytes_lt_iff.2 hLt) (List.not_lt.2 hLe)
  · intro h
    refine ⟨h.found, h.invalid, fun n e other hFound hBuild => ?_⟩
    refine List.not_lt.1 fun hLt => ?_
    obtain ⟨m, hm⟩ := h.first n e hFound (utf8Bytes_lt_iff.1 hLt)
    rw [hBuild] at hm
    cases hm

/-- Building all definitions reports the invalid one with the least name. -/
theorem buildAll_eq_error_iff_leastInvalid {r : Rejection} :
    c.buildAll = .error r ↔
      ∃ name d cause, c.LeastInvalid name d cause ∧
        r = ⟨some name, d.spec, cause⟩ := by
  simp only [leastInvalid_iff, buildAll_eq_error_iff]

/-- Building all definitions builds each of them. -/
theorem buildAll_eq_ok_iff {built : List (String × Mixture)} :
    c.buildAll = .ok built ↔
      List.Forall₂ (fun entry b => b.1 = entry.1 ∧ entry.2.build = .ok b.2)
        c.distributions.entries built := by
  rw [buildAll_eq, Codec.mapM_eq_ok_iff]
  have hEntry : ∀ (entry : String × Definition) (b : String × Mixture),
      buildEntry entry = .ok b ↔ b.1 = entry.1 ∧ entry.2.build = .ok b.2 := by
    rintro ⟨name, d⟩ ⟨n, m⟩
    cases hBuild : d.build with
    | ok m' =>
        rw [buildEntry_ok hBuild]
        simp [eq_comm]
    | error cause =>
        rw [buildEntry_error hBuild]
        simp
  simp only [hEntry]

theorem exists_buildAll_ok_iff :
    (∃ built, c.buildAll = .ok built) ↔
      ∀ name d, c.distributions.find? name = some d → ∃ m, d.build = .ok m := by
  constructor
  · rintro ⟨built, hAll⟩ name d hFound
    obtain ⟨b, -, -, hBuild⟩ := Codec.exists_partner (buildAll_eq_ok_iff.1 hAll)
      (name, d) (Catalog.find?_eq_some_iff.1 hFound)
    exact ⟨b.2, hBuild⟩
  · intro hValid
    cases hAll : c.buildAll with
    | ok built => exact ⟨built, rfl⟩
    | error r =>
        obtain ⟨name, d, cause, h, -⟩ := buildAll_eq_error_iff.1 hAll
        obtain ⟨m, hm⟩ := hValid name d h.found
        rw [h.invalid] at hm
        cases hm

section Built

variable {built : List (String × Mixture)} (h : c.buildAll = .ok built)

include h

/-- What is built has the configured names, in order. -/
theorem names_buildAll :
    built.map Prod.fst = c.distributions.entries.map Prod.fst := by
  have hPairs := buildAll_eq_ok_iff.1 h
  have hNames : List.Forall₂ (· = ·) (built.map Prod.fst)
      (c.distributions.entries.map Prod.fst) := by
    rw [List.forall₂_map_left_iff, List.forall₂_map_right_iff]
    exact hPairs.flip.imp fun _ _ hPair => hPair.1
  exact List.forall₂_eq_eq_eq ▸ hNames

/-- Every name has what its definition builds. -/
theorem mem_buildAll_iff {name : String} {m : Mixture} :
    (name, m) ∈ built ↔
      ∃ d, c.distributions.find? name = some d ∧ d.build = .ok m := by
  have hPairs := buildAll_eq_ok_iff.1 h
  constructor
  · intro hMem
    obtain ⟨⟨n, d⟩, hEntry, rfl, hBuild⟩ :=
      Codec.exists_partner hPairs.flip (name, m) hMem
    exact ⟨d, Catalog.find?_eq_some_iff.2 hEntry, hBuild⟩
  · rintro ⟨d, hFound, hBuild⟩
    obtain ⟨⟨n, m'⟩, hMem, rfl, hBuild'⟩ := Codec.exists_partner hPairs
      (name, d) (Catalog.find?_eq_some_iff.1 hFound)
    obtain rfl : m = m' := Except.ok.inj (hBuild.symm.trans hBuild')
    exact hMem

end Built

/-! ## Single names -/

/-- **Building all definitions, and resolving single names.** Building all of
them succeeds exactly if each of them can be built; it has the configured names,
each with what its definition builds. Else it reports the invalid definition
whose name has the least bytes. A configured name is resolved, for whatever
kind, as what its definition builds; if that fails, the rejection is the one of
building all definitions of any configuration where this is the least invalid
name. -/
theorem buildAll_resolve (c : Config) :
    ((∃ built, c.buildAll = .ok built) ↔
      ∀ name d, c.distributions.find? name = some d → ∃ m, d.build = .ok m) ∧
    (∀ built, c.buildAll = .ok built →
      built.map Prod.fst = c.distributions.entries.map Prod.fst ∧
      ∀ name m, (name, m) ∈ built ↔
        ∃ d, c.distributions.find? name = some d ∧ d.build = .ok m) ∧
    (∀ r, c.buildAll = .error r ↔ ∃ name d cause,
      c.LeastInvalid name d cause ∧ r = ⟨some name, d.spec, cause⟩) ∧
    ∀ name d kind, c.distributions.find? name = some d →
      (∀ m, d.build = .ok m → c.resolve name kind = .ok m) ∧
      ∀ cause, d.build = .error cause → ∃ r,
        c.resolve name kind = .error r ∧
        r.messages =
          ["Invalid distribution '" ++ name ++ "': " ++ d.spec, cause.message] ∧
        ∀ other : Config, other.LeastInvalid name d cause →
          other.buildAll = .error r := by
  refine ⟨exists_buildAll_ok_iff, ?_,
    fun r => buildAll_eq_error_iff_leastInvalid, ?_⟩
  · intro built hAll
    exact ⟨names_buildAll hAll, fun name m => mem_buildAll_iff hAll⟩
  · intro name d kind hFound
    rw [resolve_of_find? hFound kind]
    refine ⟨fun m hBuild => Definition.buildAs_ok hBuild _, ?_⟩
    intro cause hBuild
    refine ⟨_, Definition.buildAs_error hBuild _, rfl, ?_⟩
    intro other hLeast
    exact buildAll_eq_error_iff_leastInvalid.2 ⟨name, d, cause, hLeast, rfl⟩

/-- Of two definitions that cannot be built, the one with the greater name is
resolved as if it were the only one. -/
theorem buildAll_resolve_greater :
    let d : Definition := ⟨.integer, "x"⟩
    let both : Config := ⟨.standard, .ofList [("z", d), ("a", d)]⟩
    let alone : Config := ⟨.standard, .ofList [("z", d)]⟩
    ∃ r, both.resolve "z" .word = .error r ∧ alone.buildAll = .error r ∧
      ∃ first, both.buildAll = .error first ∧ first.name = some "a" := by
  intro d both alone
  obtain ⟨cause, hInvalid⟩ := d.exists_build_error (by decide +kernel)
  have hBoth : both.distributions.entries = [("a", d), ("z", d)] := by
    decide +kernel
  have hAlone : alone.distributions.entries = [("z", d)] := rfl
  have hLeast : alone.LeastInvalid "z" d cause := by
    refine ⟨Catalog.find?_of_entries hAlone rfl, hInvalid, ?_⟩
    intro n e other hFound hBuild
    rw [Catalog.find?_eq_some_iff, hAlone, List.mem_singleton] at hFound
    cases hFound
    exact List.le_refl _
  have hFirst : both.LeastInvalid "a" d cause := by
    refine ⟨Catalog.find?_of_entries hBoth rfl, hInvalid, ?_⟩
    intro n e other hFound hBuild
    rw [Catalog.find?_eq_some_iff, hBoth, List.mem_pair] at hFound
    rcases hFound with hFound | hFound
    · cases hFound
      exact List.le_refl _
    · cases hFound
      decide +kernel
  obtain ⟨-, -, hError, hResolve⟩ := buildAll_resolve both
  obtain ⟨r, hRejected, -, hOther⟩ := (hResolve "z" d .word
    (Catalog.find?_of_entries hBoth rfl)).2 cause hInvalid
  exact ⟨r, hRejected, hOther alone hLeast,
    _, (hError _).2 ⟨"a", d, cause, hFirst, rfl⟩, rfl⟩

end ValueMix.Config
