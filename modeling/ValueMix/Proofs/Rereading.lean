import Mathlib
import ValueMix.Proofs.Equality
import ValueMix.Proofs.RoundTrip

/-!
# Distributions that their text determines

A text shows marginals in tenths of a percent. A distribution whose marginals
are whole tenths is read back from its text as it is, and no other one is. What
is read back from a text has marginals of this form, so writing and reading it
again changes nothing more.

## Main results

* `read_text_ok` — what the text of a distribution yields when it is read.
* `read_write_eq_iff` — when that is the distribution itself, and that nothing
  drifts after the first time.
-/

namespace ValueMix

open ValueMix.Number

namespace Distribution

variable {α : Type}

/-! ## Marginals in tenths of a percent -/

/-- The cumulative probabilities are determined by the marginals. -/
theorem cumulatives_eq_of_marginals {d e : Distribution α}
    (h : d.marginals = e.marginals) : d.cumulatives = e.cumulatives := by
  rw [← runningSums_steps 0 d.cumulatives, ← runningSums_steps 0 e.cumulatives]
  exact congrArg (runningSums 0) h

/-- Every value is shown with a share. -/
theorem length_shown (d : Distribution α) :
    (apportion d.marginals).length = d.values.length := by
  rw [length_apportion, length_marginals, length_values]

/-- The text depends on the values and on what is shown of the marginals. -/
theorem text_congr [ToString α] {d e : Distribution α}
    (hValues : d.values = e.values)
    (hShown : apportion d.marginals = apportion e.marginals) :
    d.text = e.text := by
  rw [text, text, apportionedTexts, apportionedTexts, hValues, hShown]

end Distribution

namespace Kind

open ValueMix.Distribution

instance (k : Kind) : DecidableEq k.Value :=
  match k with
  | integer => inferInstanceAs (DecidableEq UInt64)
  | size => inferInstanceAs (DecidableEq UInt64)
  | word => inferInstanceAs (DecidableEq String)

section Reread

variable {k : Kind} {text : String} {d : Distribution k.Value}
  (h : k.codec.read text = .ok d)

include h

/-- The text of a distribution that was read states the shares shown. -/
theorem read_text : k.codec.read d.text =
    ofEntries (shownEntries (apportion d.marginals) d.values) := by
  apply Codec.read_text k.plain_codec (Reachable.read _ _ h).tabulated
  intro v hv
  obtain ⟨t, hMatch, hRead⟩ :=
    Codec.statedValue_of_mem_values k.plain_codec h v hv
  exact k.statedValue_toString hMatch hRead

/-- A text is read back if every share that it shows is positive. -/
theorem exists_read_text (hPos : ∀ t ∈ apportion d.marginals, 0 < t) :
    ∃ d', k.codec.read d.text = .ok d' ∧ d'.values = d.values ∧
      d'.marginals = ofTenths (apportion d.marginals) := by
  rw [read_text h]
  exact ofEntries_shown d.length_shown
    (Reachable.read _ _ h).tabulated.sum_tenths hPos

/-- Whatever is read back from a text has the same values, and as marginals the
shares shown. -/
theorem read_text_ok {d' : Distribution k.Value}
    (h' : k.codec.read d.text = .ok d') :
    d'.values = d.values ∧ d'.marginals = ofTenths (apportion d.marginals) := by
  have hTable := (Reachable.read _ _ h).tabulated
  by_cases hPos : ∀ t ∈ apportion d.marginals, 0 < t
  · obtain ⟨e, he, hSame⟩ := exists_read_text h hPos
    obtain rfl : d' = e := Except.ok.inj (h'.symm.trans he)
    exact hSame
  · rw [read_text h, ofEntries_shown_zero d.length_shown hTable.sum_tenths
      hTable.tenths_nonneg hPos] at h'
    cases h'

end Reread

/-- **Distributions that their text determines.** The text of a distribution
that was read is read back as an equal distribution exactly if all marginals are
whole tenths of a percent. Whatever is read back from it is written the same,
so it is read back as it is ever after. -/
theorem read_write_eq_iff (k : Kind) (c : Codec k.Value)
    (hc : Codec.ofReader k.reader = .ok c) (text : String)
    (d : Distribution k.Value) (h : c.read text = .ok d) :
    ((∃ d', c.read (c.write d) = .ok d' ∧ (d' == d) = true) ↔
      ∀ p ∈ d.marginals, ∃ t : ℤ, p = t / 1000) ∧
    (∀ d', c.read (c.write d) = .ok d' →
      c.write d' = c.write d ∧ c.read (c.write d') = .ok d') := by
  obtain rfl : k.codec = c := Except.ok.inj (k.ofReader_reader.symm.trans hc)
  have hTable := (Reachable.read _ _ h).tabulated
  rw [forall_tenths_iff]
  refine ⟨⟨?_, ?_⟩, ?_⟩
  · rintro ⟨d', hRead, hEqual⟩
    have hSame : d'.marginals = d.marginals :=
      congrArg (steps 0) (beq_iff.1 hEqual).2
    rw [← (read_text_ok h hRead).2, hSame]
  · intro hExact
    have hPos : ∀ t ∈ apportion d.marginals, 0 < t := by
      intro t ht
      have hMarginal : (t : ℚ) / 1000 ∈ d.marginals := by
        rw [← hExact]
        exact List.mem_map_of_mem ht
      have hShare := hTable.marginals_pos _ hMarginal
      have hPosQ : (0 : ℚ) < t := by linarith
      exact_mod_cast hPosQ
    obtain ⟨d', hRead, hValues, hMarginals⟩ := exists_read_text h hPos
    refine ⟨d', hRead, beq_iff.2 ⟨?_, ?_⟩⟩
    · rw [hValues, beq_self_eq_true]
    · exact cumulatives_eq_of_marginals (hMarginals.trans hExact)
  · intro d' hRead
    obtain ⟨hValues, hMarginals⟩ := read_text_ok h hRead
    have hText : d'.text = d.text := by
      apply text_congr hValues
      rw [hMarginals, apportion_ofTenths]
    have hAgain : k.codec.read d'.text = .ok d' := by
      rw [hText]
      exact hRead
    exact ⟨hText, hAgain⟩

/-- A tenth, six tenths and three tenths are read back as they are. -/
theorem read_write_eq_iff_tenths :
    ∃ d, Kind.integer.codec.read "10%:100, 2:200, 300" = .ok d ∧
      ∃ d', Kind.integer.codec.read (Kind.integer.codec.write d) = .ok d' ∧
        (d' == d) = true := by
  have hTenths : (Kind.integer.codec.read "10%:100, 2:200, 300").toOption.map
      Distribution.marginals = some [1 / 10, 3 / 5, 3 / 10] := by
    decide +kernel
  obtain ⟨d, hRead, hMarginals⟩ := exists_ok_of_toOption hTenths
  refine ⟨d, hRead, (read_write_eq_iff .integer _ (ofReader_reader .integer)
    "10%:100, 2:200, 300" d hRead).1.2 ?_⟩
  rw [hMarginals]
  simp only [List.forall_mem_cons]
  exact ⟨⟨100, by norm_num⟩, ⟨600, by norm_num⟩, ⟨300, by norm_num⟩, by simp⟩

end Kind

end ValueMix
