import Mathlib
import ValueMix.Number.Percent

/-!
# Rounding by largest remainders

The tenths that rounding down loses are the fractions of the parts added up,
rounded to an integer. So there are never more of them than parts with a
fraction, and every one of them finds a place.

## Main results

* `sum_apportion` — the tenths shown add up to the rounded total.
* `forall₂_apportion` — every part is shown rounded down, or one tenth above
  that.
* `floor_or_ceil_apportion` — a part that is not negative is shown rounded
  down or rounded up.
* `abs_apportion_sub_lt` — what is shown of parts that are not negative is
  less than one tenth away.
* `forall_tenths_iff` — parts that are whole tenths are those that are shown
  exactly.
-/

namespace ValueMix.Number

/-! ## Rounding to integers -/

theorem abs_roundHalfAway_sub_le (q : ℚ) :
    |(roundHalfAway q : ℚ) - q| ≤ 1 / 2 := by
  have hFloor : ∀ x : ℚ, |((x + 1 / 2).floor : ℚ) - x| ≤ 1 / 2 := by
    intro x
    have hLow : (⌊x + 1 / 2⌋ : ℚ) ≤ x + 1 / 2 := Int.floor_le _
    have hHigh : x + 1 / 2 < ⌊x + 1 / 2⌋ + 1 := Int.lt_floor_add_one _
    rw [abs_le]
    constructor
    · show -(1 / 2) ≤ (⌊x + 1 / 2⌋ : ℚ) - x
      linarith
    · show (⌊x + 1 / 2⌋ : ℚ) - x ≤ 1 / 2
      linarith
  unfold roundHalfAway
  split
  · have hNeg := hFloor (-q)
    rw [abs_sub_comm] at hNeg
    push_cast
    rw [show ∀ a b : ℚ, -a - b = -b - a by intros; ring]
    exact hNeg
  · exact hFloor q

theorem roundHalfAway_intCast (n : ℤ) : roundHalfAway n = n := by
  have h := abs_le.1 (abs_roundHalfAway_sub_le n)
  have hLow : (n : ℚ) - 1 < roundHalfAway n := by linarith
  have hHigh : (roundHalfAway n : ℚ) < n + 1 := by linarith
  have hLow' : n - 1 < roundHalfAway n := by exact_mod_cast hLow
  have hHigh' : roundHalfAway n < n + 1 := by exact_mod_cast hHigh
  omega

/-! ## The shortage -/

/-- The tenths of the parts, each rounded down. -/
def floors (parts : List ℚ) : List ℤ := parts.map fun p => ⌊inTenths p⌋

/-- What rounding down takes from each part, in tenths. -/
def fractions (parts : List ℚ) : List ℚ :=
  parts.map fun p => Int.fract (inTenths p)

theorem sum_floors_add_sum_fractions (parts : List ℚ) :
    ((floors parts).sum : ℚ) + (fractions parts).sum = inTenths parts.sum := by
  induction parts with
  | nil => simp [floors, fractions, inTenths]
  | cons p parts ih =>
      have hPart := Int.floor_add_fract (inTenths p)
      have hTenths : inTenths (p + parts.sum) =
          inTenths p + inTenths parts.sum := by
        unfold inTenths
        ring
      rw [List.sum_cons, hTenths, ← ih, ← hPart]
      simp only [floors, fractions, List.map_cons, List.sum_cons]
      push_cast
      ring

theorem sum_fractions_nonneg (parts : List ℚ) : 0 ≤ (fractions parts).sum := by
  refine List.sum_nonneg fun x hx => ?_
  obtain ⟨p, -, rfl⟩ := List.mem_map.1 hx
  exact Int.fract_nonneg _

/-- Every fraction is less than one. -/
theorem sum_fractions_le (parts : List ℚ) :
    (fractions parts).sum ≤ (fractions parts).countP (0 < ·) := by
  induction parts with
  | nil => simp [fractions]
  | cons p parts ih =>
      have hLow := Int.fract_nonneg (inTenths p)
      have hHigh := Int.fract_lt_one (inTenths p)
      simp only [fractions, List.map_cons, List.sum_cons] at ih ⊢
      by_cases hPos : 0 < Int.fract (inTenths p)
      · rw [List.countP_cons_of_pos (by simpa using hPos)]
        push_cast
        linarith
      · rw [List.countP_cons_of_neg (by simpa using hPos)]
        linarith

/-- The tenths missing from the rounded total, before they are counted. -/
theorem shortage_bounds (parts : List ℚ) :
    0 ≤ roundHalfAway (inTenths parts.sum) - (floors parts).sum ∧
      roundHalfAway (inTenths parts.sum) - (floors parts).sum ≤
        (fractions parts).countP (0 < ·) := by
  have hRound := abs_le.1 (abs_roundHalfAway_sub_le (inTenths parts.sum))
  rw [← sum_floors_add_sum_fractions] at hRound ⊢
  have hNonneg := sum_fractions_nonneg parts
  have hLe := sum_fractions_le parts
  set r := roundHalfAway (((floors parts).sum : ℚ) + (fractions parts).sum)
  have hLow : ((floors parts).sum : ℚ) - 1 < r := by linarith
  have hHigh : (r : ℚ) <
      (floors parts).sum + (fractions parts).countP (0 < ·) + 1 := by
    linarith
  have hLow' : (floors parts).sum - 1 < r := by exact_mod_cast hLow
  have hHigh' : r < (floors parts).sum +
      ((fractions parts).countP (0 < ·) : ℕ) + 1 := by exact_mod_cast hHigh
  constructor
  · omega
  · omega

theorem shortage_eq (parts : List ℚ) :
    (shortage parts : ℤ) =
      roundHalfAway (inTenths parts.sum) - (floors parts).sum := by
  have hDef : shortage parts =
      (roundHalfAway (inTenths parts.sum) - (floors parts).sum).toNat := by
    unfold shortage
    rw [← List.sum_eq_foldr, ← List.sum_eq_foldr]
    rfl
  rw [hDef, Int.toNat_of_nonneg (shortage_bounds parts).1]

theorem shortage_le_countP (parts : List ℚ) :
    shortage parts ≤ (fractions parts).countP (0 < ·) := by
  have h := (shortage_bounds parts).2
  rw [← shortage_eq] at h
  exact_mod_cast h

theorem shortage_le_length (parts : List ℚ) :
    shortage parts ≤ parts.length := by
  have hCount := (fractions parts).countP_le_length (p := (0 < ·))
  rw [fractions, List.length_map] at hCount
  exact (shortage_le_countP parts).trans hCount

/-! ## The positions rounded up -/

/-- Remainders with their positions, the largest first. -/
def ranked (rs : List ℚ) : List (ℚ × ℕ) :=
  rs.zipIdx.mergeSort fun a b => b.1 ≤ a.1

theorem byRemainder_eq (parts : List ℚ) :
    byRemainder parts =
      (ranked (parts.map fun p => remainder (inTenths p))).map Prod.snd := rfl

theorem ranked_perm (rs : List ℚ) : (ranked rs).Perm rs.zipIdx :=
  List.mergeSort_perm _ _

private theorem ranking_trans (a b c : ℚ × ℕ) :
    decide (b.1 ≤ a.1) = true → decide (c.1 ≤ b.1) = true →
      decide (c.1 ≤ a.1) = true := by
  simp only [decide_eq_true_eq]
  exact fun hab hbc => hbc.trans hab

private theorem ranking_total (a b : ℚ × ℕ) :
    (decide (b.1 ≤ a.1) || decide (a.1 ≤ b.1)) = true := by
  rw [Bool.or_eq_true, decide_eq_true_eq, decide_eq_true_eq]
  exact le_total b.1 a.1

theorem pairwise_ranked (rs : List ℚ) :
    (ranked rs).Pairwise fun a b => b.1 ≤ a.1 :=
  (List.pairwise_mergeSort ranking_trans ranking_total _).imp of_decide_eq_true

/-- Equal remainders keep their order. -/
theorem filter_ranked (rs : List ℚ) (r : ℚ) :
    (ranked rs).filter (fun a => a.1 = r) =
      rs.zipIdx.filter fun a => a.1 = r := by
  have hTied : (rs.zipIdx.filter fun a => a.1 = r).Pairwise
      fun a b => decide (b.1 ≤ a.1) = true := by
    refine List.pairwise_iff_forall_sublist.2 fun {a b} hab => ?_
    have ha := (List.mem_filter.1 (hab.subset (by simp : a ∈ [a, b]))).2
    have hb := (List.mem_filter.1 (hab.subset (by simp : b ∈ [a, b]))).2
    rw [decide_eq_true_eq] at ha hb ⊢
    exact (hb.trans ha.symm).le
  have hKept : (rs.zipIdx.filter fun a => a.1 = r).Sublist (ranked rs) :=
    List.sublist_mergeSort ranking_trans ranking_total hTied List.filter_sublist
  have hInside := hKept.filter fun a => decide (a.1 = r)
  rw [List.filter_filter] at hInside
  simp only [Bool.and_self] at hInside
  exact (hInside.eq_of_length ((ranked_perm rs).filter _).length_eq.symm).symm

theorem byRemainder_perm (parts : List ℚ) :
    (byRemainder parts).Perm (List.range parts.length) := by
  have hSnd : ∀ l : List ℚ, l.zipIdx.map Prod.snd = List.range l.length := by
    intro l
    rw [List.zipIdx_map_snd, List.range_eq_range']
  rw [byRemainder_eq]
  refine ((ranked_perm _).map Prod.snd).trans ?_
  rw [hSnd, List.length_map]

theorem length_byRemainder (parts : List ℚ) :
    (byRemainder parts).length = parts.length := by
  rw [(byRemainder_perm parts).length_eq, List.length_range]

theorem nodup_byRemainder (parts : List ℚ) : (byRemainder parts).Nodup :=
  (byRemainder_perm parts).nodup_iff.2 List.nodup_range

theorem length_roundedUp (parts : List ℚ) :
    (roundedUp parts).length = shortage parts := by
  rw [roundedUp, List.length_take, length_byRemainder]
  exact min_eq_left (shortage_le_length parts)

theorem nodup_roundedUp (parts : List ℚ) : (roundedUp parts).Nodup :=
  (List.take_sublist _ _).nodup (nodup_byRemainder parts)

theorem lt_of_mem_roundedUp {parts : List ℚ} {i : ℕ}
    (h : i ∈ roundedUp parts) : i < parts.length := by
  have hAll := List.mem_of_mem_take h
  rwa [(byRemainder_perm parts).mem_iff, List.mem_range] at hAll

/-- As many positions are rounded up as tenths are missing. -/
theorem countP_roundedUp (parts : List ℚ) :
    (List.range parts.length).countP (· ∈ roundedUp parts) =
      shortage parts := by
  rw [List.countP_eq_length_filter, ← length_roundedUp]
  refine List.Perm.length_eq ?_
  rw [List.perm_ext_iff_of_nodup (List.nodup_range.filter _)
    (nodup_roundedUp parts)]
  intro i
  rw [List.mem_filter, List.mem_range, decide_eq_true_eq]
  exact and_iff_right_of_imp lt_of_mem_roundedUp

theorem inTenths_nonneg {p : ℚ} (h : 0 ≤ p) : 0 ≤ inTenths p :=
  mul_nonneg h (by norm_num)

theorem remainder_of_nonneg {q : ℚ} (h : 0 ≤ q) :
    remainder q = Int.fract q := by
  rw [remainder, truncate, if_neg h.not_gt]
  rfl

/-- The first elements of a list have a property if those that have it come
first and there are enough of them. -/
theorem forall_mem_take {β : Type} {P : β → Bool} {l : List β} {n : ℕ}
    (hFirst : l.Pairwise fun a b => P b = true → P a = true)
    (hEnough : n ≤ l.countP P) : ∀ a ∈ l.take n, P a = true := by
  induction l generalizing n with
  | nil => simp
  | cons b l ih =>
      rw [List.pairwise_cons] at hFirst
      cases n with
      | zero => simp
      | succ n =>
          by_cases hb : P b = true
          · rw [List.countP_cons_of_pos hb] at hEnough
            rw [List.take_succ_cons, List.forall_mem_cons]
            exact ⟨hb, ih hFirst.2 (Nat.le_of_succ_le_succ hEnough)⟩
          · -- behind an element without the property none has it
            have hNone : l.countP P = 0 :=
              List.countP_eq_zero.2 fun a ha hPa => hb (hFirst.1 a ha hPa)
            rw [List.countP_cons_of_neg hb, hNone] at hEnough
            exact absurd hEnough (Nat.not_succ_le_zero n)

/-- Only parts with a fraction are rounded up. -/
theorem fract_pos_of_mem_roundedUp {parts : List ℚ} (h : ∀ p ∈ parts, 0 ≤ p)
    {i : ℕ} (hLt : i < parts.length) (hi : i ∈ roundedUp parts) :
    0 < Int.fract (inTenths parts[i]) := by
  have hRemainders :
      (parts.map fun p => remainder (inTenths p)) = fractions parts := by
    exact List.map_congr_left fun p hp =>
      remainder_of_nonneg (inTenths_nonneg (h p hp))
  have hCount : (ranked (fractions parts)).countP (fun a => decide (0 < a.1)) =
      (fractions parts).countP (0 < ·) := by
    rw [(ranked_perm _).countP_eq]
    conv_rhs => rw [← List.zipIdx_map_fst 0 (fractions parts), List.countP_map]
    rfl
  have hFirst := forall_mem_take (P := fun a : ℚ × ℕ => decide (0 < a.1))
    ((pairwise_ranked _).imp fun hab => by
      simp only [decide_eq_true_eq]
      exact fun hb => hb.trans_le hab)
    (hCount ▸ shortage_le_countP parts)
  rw [roundedUp, byRemainder_eq, hRemainders, ← List.map_take] at hi
  obtain ⟨a, ha, rfl⟩ := List.mem_map.1 hi
  have hPos := hFirst a ha
  have hAt :=
    List.mem_zipIdx' ((ranked_perm _).mem_iff.1 (List.mem_of_mem_take ha))
  rw [decide_eq_true_eq, hAt.2] at hPos
  simpa [fractions] using hPos

/-! ## What is shown -/

theorem getElem_apportion {parts : List ℚ} {i : ℕ} (hi : i < parts.length)
    (hi' : i < (apportion parts).length) :
    (apportion parts)[i] =
      ⌊inTenths parts[i]⌋ + if i ∈ roundedUp parts then 1 else 0 := by
  simp only [apportion, List.getElem_map, List.getElem_zipIdx, Nat.zero_add]
  rfl

/-- The tenths shown add up to the rounded total. -/
theorem sum_apportion (parts : List ℚ) :
    (apportion parts).sum = roundHalfAway (inTenths parts.sum) := by
  have hShape : apportion parts = parts.zipIdx.map fun a =>
      ⌊inTenths a.1⌋ + if a.2 ∈ roundedUp parts then 1 else 0 := rfl
  have hSplit : ∀ l : List (ℚ × ℕ),
      (l.map fun a => ⌊inTenths a.1⌋ +
        if a.2 ∈ roundedUp parts then 1 else 0).sum =
      (l.map fun a => ⌊inTenths a.1⌋).sum +
        ((l.map Prod.snd).countP (· ∈ roundedUp parts) : ℤ) := by
    intro l
    induction l with
    | nil => rfl
    | cons a l ih =>
        simp only [List.map_cons, List.sum_cons, ih, List.countP_cons,
          decide_eq_true_eq]
        split <;> push_cast <;> ring
  have hFloors : (parts.zipIdx.map fun a => ⌊inTenths a.1⌋) = floors parts := by
    rw [floors]
    conv_rhs => rw [← List.zipIdx_map_fst 0 parts, List.map_map]
    rfl
  rw [hShape, hSplit, hFloors, List.zipIdx_map_snd, ← List.range_eq_range',
    countP_roundedUp, shortage_eq]
  ring

/-- Every part is shown rounded down, or one tenth above that. -/
theorem forall₂_apportion (parts : List ℚ) :
    List.Forall₂ (fun t p => t = ⌊inTenths p⌋ ∨ t = ⌊inTenths p⌋ + 1)
      (apportion parts) parts := by
  rw [List.forall₂_iff_get]
  refine ⟨length_apportion parts, fun i hi' hi => ?_⟩
  have hShown := getElem_apportion hi hi'
  by_cases hUp : i ∈ roundedUp parts
  · rw [if_pos hUp] at hShown
    exact Or.inr hShown
  · rw [if_neg hUp, add_zero] at hShown
    exact Or.inl hShown

/-- Parts that are not negative are shown rounded down or rounded up: a part
without a fraction gets no extra tenth. -/
theorem floor_or_ceil_apportion {parts : List ℚ} (h : ∀ p ∈ parts, 0 ≤ p) :
    List.Forall₂ (fun (t : ℤ) p => t = ⌊inTenths p⌋ ∨ t = ⌈inTenths p⌉)
      (apportion parts) parts := by
  rw [List.forall₂_iff_get]
  refine ⟨length_apportion parts, fun i hi' hi => ?_⟩
  have hShown := getElem_apportion hi hi'
  show (apportion parts)[i] = ⌊inTenths parts[i]⌋ ∨
    (apportion parts)[i] = ⌈inTenths parts[i]⌉
  by_cases hUp : i ∈ roundedUp parts
  · have hPos := fract_pos_of_mem_roundedUp h hi hUp
    rw [if_pos hUp] at hShown
    have hSplit := Int.floor_add_fract (inTenths parts[i])
    have hHigh := Int.lt_floor_add_one (inTenths parts[i])
    right
    rw [hShown, eq_comm, Int.ceil_eq_iff]
    push_cast
    constructor <;> linarith
  · rw [if_neg hUp, add_zero] at hShown
    exact Or.inl hShown

theorem abs_sub_lt_of_floor_or_ceil {t : ℤ} {x : ℚ}
    (h : t = ⌊x⌋ ∨ t = ⌈x⌉) : |(t : ℚ) - x| < 1 := by
  rw [abs_lt]
  rcases h with rfl | rfl
  · have hLow := Int.floor_le x
    have hHigh := Int.lt_floor_add_one x
    constructor <;> linarith
  · have hLow := Int.le_ceil x
    have hHigh := Int.ceil_lt_add_one x
    constructor <;> linarith

/-- What is shown of parts that are not negative is less than one tenth
away. -/
theorem abs_apportion_sub_lt {parts : List ℚ} (h : ∀ p ∈ parts, 0 ≤ p) :
    List.Forall₂ (fun (t : ℤ) p => |(t : ℚ) - inTenths p| < 1)
      (apportion parts) parts :=
  (floor_or_ceil_apportion h).imp fun _ _ => abs_sub_lt_of_floor_or_ceil

/-- No part is shown below a bound that holds of every part. -/
theorem le_apportion {parts : List ℚ} {b : ℤ}
    (h : ∀ p ∈ parts, (b : ℚ) ≤ inTenths p) : ∀ t ∈ apportion parts, b ≤ t := by
  intro t ht
  obtain ⟨i, hi', rfl⟩ := List.mem_iff_getElem.1 ht
  have hi : i < parts.length := by rwa [length_apportion] at hi'
  have hFloor : b ≤ ⌊inTenths parts[i]⌋ :=
    Int.le_floor.2 (h _ (List.getElem_mem hi))
  rw [getElem_apportion hi hi']
  split <;> omega

theorem apportion_nonneg {parts : List ℚ} (h : ∀ p ∈ parts, 0 ≤ p) :
    ∀ t ∈ apportion parts, 0 ≤ t :=
  le_apportion fun p hp => by
    rw [Int.cast_zero]
    exact inTenths_nonneg (h p hp)

/-! ## Parts that are whole tenths -/

/-- The parts that some tenths of a percent stand for. -/
def ofTenths (ts : List ℤ) : List ℚ := ts.map fun t : ℤ => (t : ℚ) / 1000

theorem inTenths_thousandth (t : ℤ) : inTenths ((t : ℚ) / 1000) = t := by
  rw [inTenths, div_mul_cancel₀ _ (by norm_num)]

/-- Nothing is lost by rounding whole tenths down. -/
theorem shortage_ofTenths (ts : List ℤ) : shortage (ofTenths ts) = 0 := by
  have hNone : (fractions (ofTenths ts)).countP (0 < ·) = 0 := by
    rw [List.countP_eq_zero]
    intro x hx
    rw [fractions, ofTenths, List.map_map] at hx
    obtain ⟨t, -, rfl⟩ := List.mem_map.1 hx
    simp [inTenths_thousandth]
  have hLe := shortage_le_countP (ofTenths ts)
  omega

/-- Whole tenths are shown as they are. -/
theorem apportion_ofTenths (ts : List ℤ) : apportion (ofTenths ts) = ts := by
  apply List.ext_getElem
  · rw [length_apportion, ofTenths, List.length_map]
  · intro i hShown hi
    have hUp : i ∉ roundedUp (ofTenths ts) := by
      rw [roundedUp, shortage_ofTenths, List.take_zero]
      exact List.not_mem_nil
    have hParts : i < (ofTenths ts).length := by
      rwa [ofTenths, List.length_map]
    have hPart : (ofTenths ts)[i] = (ts[i] : ℚ) / 1000 := List.getElem_map _
    rw [getElem_apportion hParts hShown, if_neg hUp, hPart,
      inTenths_thousandth, Int.floor_intCast, add_zero]

/-- Parts that are whole tenths are those that are shown exactly. -/
theorem forall_tenths_iff (ps : List ℚ) :
    (∀ p ∈ ps, ∃ t : ℤ, p = t / 1000) ↔ ofTenths (apportion ps) = ps := by
  constructor
  · intro h
    have hRange : ps ∈ Set.range ofTenths := by
      show ps ∈ Set.range (List.map fun t : ℤ => (t : ℚ) / 1000)
      rw [Set.range_list_map]
      intro p hp
      obtain ⟨t, hpt⟩ := h p hp
      exact ⟨t, hpt.symm⟩
    obtain ⟨ts, rfl⟩ := hRange
    rw [apportion_ofTenths]
  · intro h p hp
    rw [← h] at hp
    obtain ⟨t, -, hpt⟩ := List.mem_map.1 hp
    exact ⟨t, hpt.symm⟩

end ValueMix.Number
