import Mathlib
import ValueMix.Proofs.Creation

/-!
# The order of entries

A builder sorts its entries by kind, and whether they fit together depends on
their sums and numbers only. So the order in which valid entries are added
decides where values stand, and neither what share they get nor which error is
reported.

## Main results

* `SameEntries.createFault_iff`, `SameEntries.fits_iff` — builders with the same
  entries fail and succeed alike.
* `entries_ofMarginals` — the entries of a table are those that it was laid out
  from.
* `ofEntries_perm` — building from a list and from a permutation of it.
-/

namespace ValueMix

variable {α : Type}

namespace Builder

/-- Builders that hold the same entries, each kind in an order of its own. -/
structure SameEntries (b c : Builder α) : Prop where
  fixed : b.fixed.Perm c.fixed
  weighted : b.weighted.Perm c.weighted

theorem sameEntries_holding {es fs : List (Entry α)} (h : es.Perm fs) :
    SameEntries (holding es) (holding fs) where
  fixed := h.filterMap Entry.fixedPart
  weighted := h.filterMap Entry.weightedPart

namespace SameEntries

variable {b c : Builder α} (h : SameEntries b c)

include h

theorem fixedTotal_eq : b.fixedTotal = c.fixedTotal := by
  rw [fixedTotal_eq_sum, fixedTotal_eq_sum]
  exact (h.fixed.map Prod.snd).sum_eq

theorem totalWeight_eq : b.totalWeight = c.totalWeight := by
  rw [totalWeight_eq_sum, totalWeight_eq_sum]
  exact (h.weighted.map Prod.snd).sum_eq

theorem alike : Alike b c where
  fixedTotal := h.fixedTotal_eq
  fixed := h.fixed.length_eq
  weighted := h.weighted.length_eq

/-- The same entries are refused with the same error. -/
theorem createFault_iff (err : Error) : b.CreateFault err ↔ c.CreateFault err :=
  h.alike.createFault_iff err

theorem fits_iff : b.Fits ↔ c.Fits := h.alike.fits_iff

/-- The same entries get the same shares. -/
theorem marginals_perm : b.marginals.Perm c.marginals := by
  rw [marginals, marginals, h.fixedTotal_eq, h.totalWeight_eq]
  exact h.fixed.append (h.weighted.map _)

end SameEntries

end Builder

namespace Distribution

/-- The entries of a table are those that it was laid out from. -/
theorem entries_ofMarginals {shares : List (α × ℚ)} (h : shares ≠ [])
    (hsum : (shares.map Prod.snd).sum = 1) :
    (ofMarginals shares h).entries = shares := by
  rw [entries, values_ofMarginals, marginals_ofMarginals h hsum]
  exact (List.zip_of_prod rfl rfl).symm

/-- **Building from a list and from a permutation of it.** Valid entries are
refused in both orders with the same error, or they are accepted in both and
every value gets the same share. If only entries of different kinds change
places the outcome is the same. -/
theorem ofEntries_perm {es fs : List (Entry α)}
    (hValid : ∀ e ∈ es, e.fault? = none) (h : es.Perm fs) :
    ((∃ err, ofEntries es = .error err ∧ ofEntries fs = .error err) ∨
      ∃ d e, ofEntries es = .ok d ∧ ofEntries fs = .ok e ∧
        (d.entries : Multiset (α × ℚ)) = e.entries) ∧
    (es.filterMap Entry.fixedPart = fs.filterMap Entry.fixedPart →
      es.filterMap Entry.weightedPart = fs.filterMap Entry.weightedPart →
      ofEntries es = ofEntries fs) := by
  have hValid' : ∀ e ∈ fs, e.fault? = none :=
    fun e he => hValid e (h.mem_iff.2 he)
  have hSame := Builder.sameEntries_holding h
  rw [ofEntries_of_valid hValid, ofEntries_of_valid hValid']
  constructor
  · cases hCreate : (Builder.holding es).create with
    | error err =>
        have hFault := (Builder.create_eq_error_iff _ err).1 hCreate
        have hFault' := (hSame.createFault_iff err).1 hFault
        exact Or.inl ⟨err, rfl, (Builder.create_eq_error_iff _ err).2 hFault'⟩
    | ok d =>
        obtain ⟨hFits, hd⟩ := (Builder.create_eq_ok_iff _ d).1 hCreate
        have hFits' := hSame.fits_iff.1 hFits
        refine Or.inr ⟨d, _, rfl, Builder.create_of_fits hFits', ?_⟩
        rw [hd, entries_ofMarginals _
            (hFits.sum_marginals (Builder.sound_holding hValid)),
          entries_ofMarginals _
            (hFits'.sum_marginals (Builder.sound_holding hValid'))]
        exact Multiset.coe_eq_coe.2 hSame.marginals_perm
  · intro hFixed hWeighted
    rw [Builder.holding, Builder.holding, hFixed, hWeighted]

/-- A weighted entry may be added before or after the first fixed one. -/
theorem ofEntries_perm_interleaved :
    ofEntries [⟨"a", .fixed (1 / 4)⟩, ⟨"b", .weighted 2⟩,
      ⟨"c", .fixed (1 / 4)⟩] =
      ofEntries
        [⟨"b", .weighted 2⟩, ⟨"a", .fixed (1 / 4)⟩, ⟨"c", .fixed (1 / 4)⟩] := by
  have hValid : ∀ e ∈ ([⟨"a", .fixed (1 / 4)⟩, ⟨"b", .weighted 2⟩,
      ⟨"c", .fixed (1 / 4)⟩] : List (Entry String)), e.fault? = none := by
    decide +kernel
  exact (ofEntries_perm hValid (List.Perm.swap _ _ _)).2 rfl rfl

end Distribution

end ValueMix
