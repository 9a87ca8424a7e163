import Mathlib
import ValueMix.Config.Basic
import ValueMix.Proofs.Refusals

/-!
# Building what is configured

A catalog holds one definition a name, in the order of the names. Building all
of them goes through the catalog in that order and ends at the first definition
that cannot be built; building one looks at no other.

## Main results

* `find?_eq_some_iff` — the definition of a name is the one listed with it.
* `buildAll_eq_error_iff` — building all fails for the first invalid name.
* `resolve_of_find?`, `resolve_of_not_find?` — what a text stands for.
* `AgreeOutside.resolve_eq` — it does not depend on what other names stand for.
-/

namespace ValueMix

namespace Catalog

/-- What stands in front of an entry is what has a smaller name. -/
theorem mem_before_iff {c : Catalog} {before after : List (String × Definition)}
    {entry e : String × Definition}
    (h : c.entries = before ++ entry :: after) :
    e ∈ before ↔ e ∈ c.entries ∧ e.1 < entry.1 := by
  have hSorted := c.sorted
  rw [h] at hSorted ⊢
  obtain ⟨-, hRest, hAcross⟩ := List.pairwise_append.1 hSorted
  constructor
  · intro he
    exact ⟨List.mem_append_left _ he, hAcross e he entry List.mem_cons_self⟩
  · rintro ⟨he, hLt⟩
    rcases List.mem_append.1 he with hBefore | hAfter
    · exact hBefore
    · rcases List.mem_cons.1 hAfter with rfl | hAfter
      · exact absurd hLt (String.lt_irrefl _)
      · have hGt := (List.pairwise_cons.1 hRest).1 e hAfter
        exact absurd (String.lt_trans hLt hGt) (String.lt_irrefl _)

/-- Looking a name up in a catalog with known entries. -/
theorem find?_of_entries {c : Catalog} {entries : List (String × Definition)}
    {name : String} {found : Option Definition} (hEntries : c.entries = entries)
    (hLookup : entries.lookup name = found) : c.find? name = found := by
  rw [find?, hEntries, hLookup]

/-- The definition of a name is the one that is listed with it. -/
theorem find?_eq_some_iff {c : Catalog} {name : String} {d : Definition} :
    c.find? name = some d ↔ (name, d) ∈ c.entries := by
  rw [find?, List.lookup_eq_some_iff]
  constructor
  · rintro ⟨before, after, hSplit, -⟩
    rw [hSplit]
    simp
  · intro h
    obtain ⟨before, after, hSplit⟩ := List.append_of_mem h
    refine ⟨before, after, hSplit, fun entry hEntry => ?_⟩
    have hLt := ((mem_before_iff hSplit).1 hEntry).2
    simpa using (String.ne_of_lt hLt).symm

end Catalog

/-! ## One definition -/

theorem Definition.exists_build_ok (d : Definition) (h : d.build.isOk = true) :
    ∃ m, d.build = .ok m := by
  cases hBuild : d.build with
  | ok m => exact ⟨m, rfl⟩
  | error cause =>
      rw [hBuild] at h
      cases h

theorem Definition.exists_build_error (d : Definition)
    (h : d.build.isOk = false) : ∃ cause, d.build = .error cause := by
  cases hBuild : d.build with
  | ok m =>
      rw [hBuild] at h
      cases h
  | error cause => exact ⟨cause, rfl⟩

theorem Definition.buildAs_ok {d : Definition} {m : Mixture}
    (h : d.build = .ok m) (name : Option String) : d.buildAs name = .ok m := by
  rw [buildAs, h]
  rfl

theorem Definition.buildAs_error {d : Definition} {cause : Error}
    (h : d.build = .error cause) (name : Option String) :
    d.buildAs name = .error ⟨name, d.spec, cause⟩ := by
  rw [buildAs, h]
  rfl

namespace Config

variable {c : Config}

/-- A configured name stands for its definition, whatever kind is asked for. -/
theorem resolve_of_find? {name : String} {d : Definition}
    (h : c.distributions.find? name = some d) (kind : Kind) :
    c.resolve name kind = d.buildAs (some name) := by
  rw [resolve, h]

/-- Any other text stands for what it states itself. -/
theorem resolve_of_not_find? {text : String}
    (h : c.distributions.find? text = none) (kind : Kind) :
    c.resolve text kind = Definition.buildAs ⟨kind, text⟩ none := by
  rw [resolve, h]

/-- The configurations have the same settings and, but for one name, the same
definitions. -/
structure AgreeOutside (name : String) (c d : Config) : Prop where
  sampling : c.sampling = d.sampling
  find?_eq : ∀ n, n ≠ name → c.distributions.find? n = d.distributions.find? n

/-- What a text stands for does not depend on the definition of another name. -/
theorem AgreeOutside.resolve_eq {name text : String} {d : Config}
    (h : AgreeOutside name c d) (hText : text ≠ name) (kind : Kind) :
    c.resolve text kind = d.resolve text kind := by
  rw [resolve, resolve, h.find?_eq text hText]

/-! ## All definitions -/

/-- The least configured name with a definition that cannot be built, and the
cause of that. -/
structure FirstInvalid (c : Config) (name : String) (d : Definition)
    (cause : Error) : Prop where
  found : c.distributions.find? name = some d
  invalid : d.build = .error cause
  first : ∀ n e, c.distributions.find? n = some e → n < name →
    ∃ m, e.build = .ok m

/-- Building a definition under its name. -/
def buildEntry (entry : String × Definition) :
    Except Rejection (String × Mixture) := do
  let m ← entry.2.buildAs (some entry.1)
  return (entry.1, m)

theorem buildAll_eq (c : Config) :
    c.buildAll = c.distributions.entries.mapM buildEntry := rfl

theorem buildEntry_ok {entry : String × Definition} {m : Mixture}
    (h : entry.2.build = .ok m) : buildEntry entry = .ok (entry.1, m) := by
  rw [buildEntry, Definition.buildAs_ok h]
  rfl

theorem buildEntry_error {entry : String × Definition} {cause : Error}
    (h : entry.2.build = .error cause) :
    buildEntry entry = .error ⟨some entry.1, entry.2.spec, cause⟩ := by
  rw [buildEntry, Definition.buildAs_error h]
  rfl

/-- Building all definitions fails for the first one that cannot be built. -/
theorem buildAll_eq_error_iff {r : Rejection} :
    c.buildAll = .error r ↔
      ∃ name d cause, c.FirstInvalid name d cause ∧
        r = ⟨some name, d.spec, cause⟩ := by
  rw [buildAll_eq, Codec.mapM_eq_error_iff]
  constructor
  · rintro ⟨before, ⟨name, d⟩, after, hSplit, hOk, hFail⟩
    cases hBuild : d.build with
    | ok m =>
        rw [buildEntry_ok hBuild] at hFail
        cases hFail
    | error cause =>
        rw [buildEntry_error hBuild] at hFail
        refine ⟨name, d, cause, ⟨?_, hBuild, ?_⟩, (Except.error.inj hFail).symm⟩
        · rw [Catalog.find?_eq_some_iff, hSplit]
          simp
        · intro n e hFound hLt
          have hBefore := (Catalog.mem_before_iff hSplit).2
            ⟨Catalog.find?_eq_some_iff.1 hFound, hLt⟩
          obtain ⟨⟨_, m⟩, hEntry⟩ := hOk (n, e) hBefore
          cases hOther : e.build with
          | ok m => exact ⟨m, rfl⟩
          | error other =>
              rw [buildEntry_error hOther] at hEntry
              cases hEntry
  · rintro ⟨name, d, cause, h, rfl⟩
    obtain ⟨before, after, hSplit⟩ :=
      List.append_of_mem (Catalog.find?_eq_some_iff.1 h.found)
    refine ⟨before, (name, d), after, hSplit, fun entry hEntry => ?_,
      buildEntry_error h.invalid⟩
    obtain ⟨hMem, hLt⟩ := (Catalog.mem_before_iff hSplit).1 hEntry
    obtain ⟨m, hm⟩ := h.first _ _ (Catalog.find?_eq_some_iff.2 hMem) hLt
    exact ⟨_, buildEntry_ok hm⟩

/-- If any definition cannot be built, there is a first one. -/
theorem exists_firstInvalid {name : String} {d : Definition} {cause : Error}
    (hFound : c.distributions.find? name = some d)
    (hBuild : d.build = .error cause) :
    ∃ n e other, c.FirstInvalid n e other := by
  cases hAll : c.buildAll with
  | error r =>
      obtain ⟨n, e, other, h, -⟩ := buildAll_eq_error_iff.1 hAll
      exact ⟨n, e, other, h⟩
  | ok built =>
      obtain ⟨entry, -, hEntry⟩ := Codec.exists_partner
        (Codec.mapM_eq_ok_iff.1 (c.buildAll_eq ▸ hAll)) (name, d)
        (Catalog.find?_eq_some_iff.1 hFound)
      rw [buildEntry_error hBuild] at hEntry
      cases hEntry

end Config

end ValueMix
