import ValueMix.Spec.Kind

/-!
# Catalogs of named distributions

A catalog keeps definitions of distributions under their names, in the order of
the names. So whatever goes through a catalog, one definition after another,
does it in that order.

## Main results

* `sorted_insertSorted`: putting a definition in keeps the names in order.
-/

namespace ValueMix

/-- A distribution that is not built yet. -/
structure Definition where
  kind : Kind
  spec : String
  deriving DecidableEq

/-- Definitions in the strict order of their names. -/
structure Catalog where
  entries : List (String × Definition)
  sorted : entries.Pairwise fun a b => a.1 < b.1

namespace Catalog

def empty : Catalog := ⟨[], .nil⟩

/-- The definition of a name. -/
def find? (c : Catalog) (name : String) : Option Definition :=
  c.entries.lookup name

/-- Puts a definition at its place in a sorted list, or in the place of one of
the same name. -/
def insertSorted (name : String) (d : Definition) :
    List (String × Definition) → List (String × Definition)
  | [] => [(name, d)]
  | (n, e) :: rest =>
      if name < n then (name, d) :: (n, e) :: rest
      else if name = n then (name, d) :: rest
      else (n, e) :: insertSorted name d rest

theorem mem_insertSorted {name : String} {d : Definition}
    {entries : List (String × Definition)} {entry : String × Definition}
    (h : entry ∈ insertSorted name d entries) :
    entry = (name, d) ∨ entry ∈ entries := by
  induction entries with
  | nil => simpa [insertSorted] using h
  | cons head rest ih =>
      unfold insertSorted at h
      split at h
      · simpa using h
      · split at h
        · rcases List.mem_cons.1 h with hHead | hRest
          · exact .inl hHead
          · exact .inr (List.mem_cons_of_mem _ hRest)
        · rcases List.mem_cons.1 h with hHead | hRest
          · exact .inr (by simp [hHead])
          · exact (ih hRest).imp_right (List.mem_cons_of_mem _)

theorem sorted_insertSorted (name : String) (d : Definition)
    (entries : List (String × Definition))
    (h : entries.Pairwise fun a b => a.1 < b.1) :
    (insertSorted name d entries).Pairwise fun a b => a.1 < b.1 := by
  induction entries with
  | nil => simp [insertSorted]
  | cons head rest ih =>
      obtain ⟨hHead, hRest⟩ := List.pairwise_cons.1 h
      unfold insertSorted
      split
      · rename_i hLt
        refine List.pairwise_cons.2 ⟨fun entry hMem => ?_, h⟩
        rcases List.mem_cons.1 hMem with hEq | hMem
        · rw [hEq]
          exact hLt
        · exact String.lt_trans hLt (hHead entry hMem)
      · rename_i hNotLt
        split
        · rename_i hEq
          exact List.pairwise_cons.2
            ⟨fun entry hMem => hEq ▸ hHead entry hMem, hRest⟩
        · rename_i hNe
          refine List.pairwise_cons.2 ⟨fun entry hMem => ?_, ih hRest⟩
          rcases mem_insertSorted hMem with hEq | hMem
          · rw [hEq]
            exact Std.lt_of_le_of_ne (String.not_lt.1 hNotLt) (Ne.symm hNe)
          · exact hHead entry hMem

/-- The catalog with a definition of one more name, or with a new definition of
the name. -/
def insert (c : Catalog) (name : String) (d : Definition) : Catalog :=
  ⟨insertSorted name d c.entries, sorted_insertSorted name d c.entries c.sorted⟩

/-- The catalog of named definitions; of several definitions of a name the last
one counts. -/
def ofList (entries : List (String × Definition)) : Catalog :=
  entries.foldl (fun c (name, d) => c.insert name d) empty

end Catalog

end ValueMix
