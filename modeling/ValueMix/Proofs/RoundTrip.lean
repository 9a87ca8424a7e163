import Mathlib
import ValueMix.Proofs.Creation
import ValueMix.Proofs.Printing

/-!
# Reading back what was written

The tenths shown for the marginals of a distribution add up to a thousand, so
the entries that its text states fill the whole mass by themselves. The text
is read back unless some entry is too small to show: that one is stated with
probability zero, which no builder takes.

## Main results

* `Tabulated.sum_tenths`, `Tabulated.tenths_near` — the tenths shown add up to
  a thousand and are close to the marginals.
* `ofEntries_shown`, `ofEntries_shown_zero` — building from what is shown.
* `statedValue_of_mem_values` — the values of a distribution that was read.
* `read_write` — the text of a distribution that was read.
-/

namespace ValueMix

open ValueMix.Number ValueMix.Text

variable {α : Type}

namespace Distribution

/-! ## The tenths shown -/

/-- An entry of at least a tenth of a percent is shown. -/
theorem tenths_pos_of_visible {d : Distribution α}
    (h : ∀ p ∈ d.marginals, 1 / 1000 ≤ p) :
    ∀ t ∈ apportion d.marginals, 0 < t := by
  have hOne : ∀ p ∈ d.marginals, ((1 : ℤ) : ℚ) ≤ inTenths p := by
    intro p hp
    have := h p hp
    rw [inTenths, Int.cast_one]
    linarith
  exact fun t ht => le_apportion hOne t ht

namespace Tabulated

variable {d : Distribution α} (hd : d.Tabulated)

include hd

/-- The tenths of a percent shown for a distribution add up to a hundred
percent. -/
theorem sum_tenths : (apportion d.marginals).sum = 1000 := by
  have hThousand : inTenths 1 = ((1000 : ℤ) : ℚ) := by norm_num [inTenths]
  rw [sum_apportion, hd.sum_marginals, hThousand, roundHalfAway_intCast]

theorem tenths_nonneg : ∀ t ∈ apportion d.marginals, 0 ≤ t :=
  apportion_nonneg fun p hp => (hd.marginals_pos p hp).le

/-- Every marginal is shown less than a tenth of a percent away. -/
theorem tenths_near :
    List.Forall₂ (fun (t : ℤ) p => |(t : ℚ) / 1000 - p| < 1 / 1000)
      (apportion d.marginals) d.marginals := by
  have hNonneg : ∀ p ∈ d.marginals, 0 ≤ p :=
    fun p hp => (hd.marginals_pos p hp).le
  refine (abs_apportion_sub_lt hNonneg).imp fun t p hNear => ?_
  rw [inTenths, abs_lt] at hNear
  rw [abs_lt]
  constructor <;> linarith

/-- No more than a thousand entries can be shown. -/
theorem size_le_of_tenths_pos (h : ∀ t ∈ apportion d.marginals, 0 < t) :
    d.size ≤ 1000 := by
  have hCard := List.card_nsmul_le_sum (apportion d.marginals) 1
    fun t ht => h t ht
  rw [hd.sum_tenths, length_apportion, length_marginals] at hCard
  simp only [nsmul_eq_mul, mul_one] at hCard
  exact_mod_cast hCard

end Tabulated

/-! ## Building from tenths -/

theorem holding_shownEntries {ts : List ℤ} {vs : List α}
    (hLen : ts.length = vs.length) :
    Builder.holding (shownEntries ts vs) =
      ⟨vs.zip (ts.map fun t : ℤ => (t : ℚ) / 1000), []⟩ := by
  induction ts generalizing vs with
  | nil =>
      rw [List.length_nil, eq_comm, List.length_eq_zero_iff] at hLen
      rw [hLen]
      rfl
  | cons t ts ih =>
      cases vs with
      | nil => cases hLen
      | cons v vs =>
          have hRest := ih (Nat.succ.inj hLen)
          simp only [Builder.holding, Builder.mk.injEq] at hRest ⊢
          rw [List.map_cons, List.zip_cons_cons, ← hRest.1]
          exact ⟨rfl, hRest.2⟩

/-- A builder takes tenths that are positive and refuses zero. -/
theorem fault?_shown {t : ℤ} (v : α) (hLow : 0 ≤ t) (hHigh : t ≤ 1000) :
    Entry.fault? ⟨v, .fixed ((t : ℚ) / 1000)⟩ =
      if 0 < t then none else some (.invalidProbability 0) := by
  have hHighQ : (t : ℚ) ≤ 1000 := by exact_mod_cast hHigh
  by_cases hPos : 0 < t
  · have hPosQ : (0 : ℚ) < t := by exact_mod_cast hPos
    rw [if_pos hPos]
    exact if_pos ⟨by positivity, by linarith⟩
  · have hZero : t = 0 := by omega
    rw [if_neg hPos, hZero]
    simp [Entry.fault?]

theorem findSome?_fault?_shown {ts : List ℤ} {vs : List α}
    (hLen : ts.length = vs.length) (hRange : ∀ t ∈ ts, 0 ≤ t ∧ t ≤ 1000) :
    (shownEntries ts vs).findSome? Entry.fault? =
      if ∀ t ∈ ts, 0 < t then none else some (.invalidProbability 0) := by
  induction ts generalizing vs with
  | nil => rfl
  | cons t ts ih =>
      cases vs with
      | nil => cases hLen
      | cons v vs =>
          rw [List.forall_mem_cons] at hRange
          have hRest := ih (Nat.succ.inj hLen) hRange.2
          rw [shownEntries, List.zipWith_cons_cons, List.findSome?_cons,
            ← shownEntries, fault?_shown v hRange.1.1 hRange.1.2, hRest]
          by_cases hPos : 0 < t
          · simp only [hPos, if_true, List.forall_mem_cons, true_and]
          · simp only [hPos, if_false, List.forall_mem_cons, false_and]

section Shown

variable {ts : List ℤ} {vs : List α} (hLen : ts.length = vs.length)
  (hSum : ts.sum = 1000)

include hSum in
theorem le_thousand (hNonneg : ∀ t ∈ ts, 0 ≤ t) : ∀ t ∈ ts, 0 ≤ t ∧ t ≤ 1000 :=
  fun t ht => ⟨hNonneg t ht, hSum ▸ List.single_le_sum hNonneg t ht⟩

include hLen hSum

/-- Positive tenths that add up to a thousand are the marginals of a
distribution. -/
theorem ofEntries_shown (hPos : ∀ t ∈ ts, 0 < t) :
    ∃ d, ofEntries (shownEntries ts vs) = .ok d ∧ d.values = vs ∧
      d.marginals = ts.map fun t : ℤ => (t : ℚ) / 1000 := by
  set b := Builder.holding (shownEntries ts vs) with hb
  rw [holding_shownEntries hLen] at hb
  have hFst : b.fixed.map Prod.fst = vs := by
    rw [hb]
    exact List.map_fst_zip (by simp [hLen])
  have hSnd : b.fixed.map Prod.snd = ts.map fun t : ℤ => (t : ℚ) / 1000 := by
    rw [hb]
    exact List.map_snd_zip (by simp [hLen])
  have hWeighted : b.weighted = [] := by rw [hb]
  have hShares : b.marginals.map Prod.snd =
      ts.map fun t : ℤ => (t : ℚ) / 1000 := by
    rw [Builder.map_snd_marginals, Builder.claimedMarginals, hSnd, hWeighted,
      List.map_nil, List.append_nil]
  have hOne : (ts.map fun t : ℤ => (t : ℚ) / 1000).sum = 1 := by
    simp only [div_eq_mul_inv, List.sum_map_mul_right]
    rw [← Int.cast_list_sum, hSum]
    norm_num
  have hFits : b.Fits := by
    refine Or.inl ⟨?_, hWeighted⟩
    rw [Builder.fixedTotal_eq_sum, hSnd, hOne]
  refine ⟨ofMarginals b.marginals hFits.marginals_ne_nil, ?_, ?_, ?_⟩
  · rw [ofEntries_eq, findSome?_fault?_shown hLen
      (le_thousand hSum fun t ht => (hPos t ht).le), if_pos hPos]
    exact Builder.create_of_fits hFits
  · rw [values_ofMarginals, Builder.map_fst_marginals, hFst, hWeighted,
      List.map_nil, List.append_nil]
  · rw [marginals_ofMarginals _ (by rw [hShares, hOne]), hShares]

/-- A share of zero tenths is refused. -/
theorem ofEntries_shown_zero (hNonneg : ∀ t ∈ ts, 0 ≤ t)
    (hZero : ¬ ∀ t ∈ ts, 0 < t) :
    ofEntries (shownEntries ts vs) = .error (.invalidProbability 0) := by
  rw [ofEntries_eq, findSome?_fault?_shown hLen (le_thousand hSum hNonneg),
    if_neg hZero]

end Shown

end Distribution

/-! ## Values that were read -/

namespace Codec

variable {c : Codec α}

/-- The values of a distribution that was read are values of tokens. -/
theorem statedValue_of_mem_values (hc : c.Plain) {text : String}
    {d : Distribution α} (h : c.read text = .ok d) :
    ∀ v ∈ d.values, ∃ t, c.StatedValue t v := by
  obtain ⟨es, hEntries, hBuilt⟩ := ofEntries_of_read h
  obtain ⟨body, -, ps, -, -, hPieces⟩ :=
    (readEntries_eq_ok_iff hc).1 hEntries
  intro v hv
  obtain ⟨e, he, rfl⟩ := Distribution.exists_entry_of_mem_values hBuilt v hv
  obtain ⟨p, -, hp⟩ := exists_partner
    (List.Forall₂.flip (R := fun e p => c.StatedEntry p e) hPieces) e he
  cases hp with
  | bare hVal _ => exact ⟨_, hVal⟩
  | shared _ hVal _ => exact ⟨_, hVal⟩

/-! ## The round trip -/

/-- Reading the text of a distribution whose values are shown as tokens. -/
theorem read_text [ToString α] (hc : c.Plain) {d : Distribution α}
    (hd : d.Tabulated)
    (hvs : ∀ v ∈ d.values, c.StatedValue (toString v).toList v) :
    c.read d.text = Distribution.ofEntries
      (Distribution.shownEntries (apportion d.marginals) d.values) := by
  have hEntries := (readEntries_eq_ok_iff hc).2
    (Distribution.statedSpec_text hd.tenths_nonneg hvs)
  show (c.readEntries d.text).bind Distribution.ofEntries = _
  rw [hEntries]
  rfl

end Codec

/-- **Reading back what was written.** The pattern of whole texts always
matches it. It is read back if every entry is shown with a positive share, and
then with the same values and marginals less than a tenth of a percent away. -/
theorem Kind.read_write (k : Kind) (c : Codec k.Value)
    (hc : Codec.ofReader k.reader = .ok c) (text : String)
    (d : Distribution k.Value) (h : c.read text = .ok d) :
    let tenths := apportion d.marginals
    let written := c.write d
    written = "[" ++ ", ".intercalate (List.zipWith
      (fun t v => tenthsText t ++ "%: " ++ toString v) tenths d.values) ++ "]" ∧
    c.accepts written = true ∧
    ((∃ d', c.read written = .ok d') ↔ ∀ t ∈ tenths, 0 < t) ∧
    ((¬ ∀ t ∈ tenths, 0 < t) →
      c.read written = .error (.invalidProbability 0)) ∧
    (∀ d', c.read written = .ok d' → d'.values = d.values ∧
      List.Forall₂ (fun p q => |p - q| < 1 / 1000) d'.marginals d.marginals) ∧
    ((∀ p ∈ d.marginals, 1 / 1000 ≤ p) → ∃ d', c.read written = .ok d') ∧
    (1000 < d.size → c.read written = .error (.invalidProbability 0)) := by
  intro tenths written
  obtain rfl : k.codec = c := Except.ok.inj (k.ofReader_reader.symm.trans hc)
  have hd : d.Tabulated := (Distribution.Reachable.read _ _ h).tabulated
  have hvs : ∀ v ∈ d.values, k.codec.StatedValue (toString v).toList v := by
    intro v hv
    obtain ⟨t, hMatch, hRead⟩ :=
      Codec.statedValue_of_mem_values k.plain_codec h v hv
    exact k.statedValue_toString hMatch hRead
  have hLen : tenths.length = d.values.length := by
    simp [tenths]
  have hRead : k.codec.read written =
      Distribution.ofEntries (Distribution.shownEntries tenths d.values) :=
    Codec.read_text k.plain_codec hd hvs
  have hShown := fun hPos =>
    hRead ▸ Distribution.ofEntries_shown hLen hd.sum_tenths hPos
  have hHidden := fun hZero => hRead ▸
    Distribution.ofEntries_shown_zero hLen hd.sum_tenths hd.tenths_nonneg hZero
  have hIff : (∃ d', k.codec.read written = .ok d') ↔ ∀ t ∈ tenths, 0 < t := by
    constructor
    · rintro ⟨d', hd'⟩
      by_contra hZero
      rw [hHidden hZero] at hd'
      cases hd'
    · intro hPos
      obtain ⟨d', hd', -⟩ := hShown hPos
      exact ⟨d', hd'⟩
  refine ⟨?_, ?_, hIff, hHidden, ?_, ?_, ?_⟩
  · show d.text = _
    rw [Distribution.text, apportionedTexts, List.zipWith_map_left]
    rfl
  · exact Pattern.accepts_iff_matches.2
      (Distribution.matches_text hd.tenths_nonneg fun v hv => (hvs v hv).1)
  · intro d' hd'
    obtain ⟨e, he, hValues, hMarginals⟩ := hShown (hIff.1 ⟨d', hd'⟩)
    obtain rfl : d' = e := Except.ok.inj (hd'.symm.trans he)
    refine ⟨hValues, ?_⟩
    rw [hMarginals, List.forall₂_map_left_iff]
    exact hd.tenths_near
  · intro hVisible
    exact hIff.2 (Distribution.tenths_pos_of_visible hVisible)
  · intro hMany
    exact hHidden fun hPos =>
      absurd (hd.size_le_of_tenths_pos hPos) hMany.not_ge

/-- Two equal shares are read back. -/
theorem Kind.read_write_halves :
    ∃ d, Kind.integer.codec.read "1, 2" = .ok d ∧
      Kind.integer.codec.accepts (Kind.integer.codec.write d) = true ∧
      ∃ d', Kind.integer.codec.read (Kind.integer.codec.write d) = .ok d' ∧
        d'.values = d.values := by
  have hHalves : (Kind.integer.codec.read "1, 2").toOption.map
      Distribution.marginals = some [1 / 2, 1 / 2] := by decide +kernel
  cases hRead : Kind.integer.codec.read "1, 2" with
  | error e =>
      rw [hRead] at hHalves
      cases hHalves
  | ok d =>
      rw [hRead] at hHalves
      have hMarginals : d.marginals = [1 / 2, 1 / 2] :=
        Option.some.inj hHalves
      obtain ⟨-, hAccepts, -, -, hSame, hVisible, -⟩ :=
        Kind.read_write .integer _ (ofReader_reader .integer) "1, 2" d hRead
      obtain ⟨d', hd'⟩ := hVisible (by rw [hMarginals]; norm_num)
      exact ⟨d, rfl, hAccepts, d', hd', (hSame d' hd').1⟩

end ValueMix
