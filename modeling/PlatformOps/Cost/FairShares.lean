import PlatformOps.Cost.Attribution
import PlatformOps.Cost.Cluster

/-!
# Fair Shares

A cost of a whole number of units of `10 ^ -12` dollars, shared by weights: in exact
arithmetic (`exactShare`, `exactSplit`) each share is rounded once, and what rounding
leaves is settled with the largest weight. `share` and `split` compute these shares as
long as 28 digits suffice (`share_eq_exact`, `split_eq_exact`).

Cutting every share down leaves something over, so the largest only gains. Rounding
each to the nearest unit may hand out more than there is, and the largest share pays
the difference: it can fall behind smaller ones, or below zero. `RoundsWithin` says
when it does not.
-/

namespace PlatformOps.Cost

open Listing Decimals Fallible

/-! ## Shares in exact arithmetic -/

/-- One share, rounded in a mode at the end only. -/
def exactPart (mode : ℚ → ℤ) (amount : ℚ) (whole : ℕ) (w : String × ℕ) : String × ℚ :=
  (w.1, mode (amount * w.2 / whole * 10 ^ places) / 10 ^ places)

/-- What is left goes to the largest weight. -/
def exactSettle (amount : ℚ) (largest : String) (parts : List (String × ℚ)) :
    List (String × ℚ) :=
  let left := amount - (parts.map Prod.snd).sum
  parts.map fun part => if part.1 = largest then (part.1, part.2 + left) else part

/-- `apportion` without a precision to run out of. -/
def exactApportion (mode : ℚ → ℤ) (amount : ℚ) (weights : List (String × ℕ)) :
    List (String × ℚ) :=
  match largest weights with
  | none => []
  | some key =>
    exactSettle amount key (weights.map (exactPart mode amount (weights.map Prod.snd).sum))

/-- `share` in exact arithmetic. -/
def exactShare (total : ℚ) (weights : List (String × ℕ)) : List (String × ℚ) :=
  exactApportion halfEven total (weights.filter fun w => 0 < w.2)

/-- `split` in exact arithmetic. -/
def exactSplit (usd : ℚ) (weights : List (String × ℕ)) : List (String × ℚ) :=
  exactApportion down usd weights

/-- A fair split: every weight has its share, they add up to the amount, none is negative, and no
larger weight has the smaller share. -/
structure Fair (amount : ℚ) (weights : List (String × ℕ)) (shares : List (String × ℚ)) : Prop where
  keys : shares.map Prod.fst = weights.map Prod.fst
  sum : (shares.map Prod.snd).sum = amount
  nonneg : ∀ s ∈ shares, 0 ≤ s.2
  monotone : ∀ v ∈ weights, ∀ w ∈ weights, v.2 < w.2 →
    ∀ s ∈ shares, ∀ t ∈ shares, s.1 = v.1 → t.1 = w.1 → s.2 ≤ t.2

/-! ## Settling whole units -/

/-- The largest weight is one of the weights, and none is larger. -/
theorem exists_largest {weights : List (String × ℕ)} {key : String}
    (h : largest weights = some key) :
    ∃ m ∈ weights, m.1 = key ∧ ∀ w ∈ weights, w.2 ≤ m.2 := by
  obtain ⟨m, hm, rfl⟩ := Option.map_eq_some_iff.mp h
  refine ⟨m, mem_sortBy.mp (List.mem_of_mem_head? hm), rfl, fun w hw => ?_⟩
  obtain ⟨rest, hrest⟩ := List.head?_eq_some_iff.mp hm
  have hsorted := pairwise_sortBy (fun w : String × ℕ => toLex (-(w.2 : ℤ), w.1)) weights
  rw [hrest] at hsorted
  rcases List.mem_cons.mp (hrest ▸ mem_sortBy.mpr hw) with rfl | hw
  · exact le_rfl
  · have hle := (List.pairwise_cons.mp hsorted).1 w hw
    rcases Prod.Lex.le_iff.mp hle with hlt | ⟨heq, -⟩
    · simp only [ofLex_toLex] at hlt
      omega
    · simp only [ofLex_toLex] at heq
      omega

section Settle

variable {units : ℕ} {weights : List (String × ℕ)} {key : String} {part : ℕ → ℤ}

/-- Shares of whole units, each weight's being its part. -/
def unitShares (part : ℕ → ℤ) (weights : List (String × ℕ)) : List (String × ℚ) :=
  weights.map fun w => (w.1, (part w.2 : ℚ) / 10 ^ places)

/-- What the parts hand out beyond the units there are. -/
def overpaid (units : ℕ) (part : ℕ → ℤ) (weights : List (String × ℕ)) : ℤ :=
  (weights.map fun w => part w.2).sum - units

/-- What a weight has in the end: the largest pays what was handed out beyond the units. -/
private def settledUnits (units : ℕ) (part : ℕ → ℤ) (weights : List (String × ℕ)) (key : String)
    (w : String × ℕ) : ℤ :=
  part w.2 - if w.1 = key then overpaid units part weights else 0

private theorem exactSettle_unitShares :
    exactSettle (units / 10 ^ places) key (unitShares part weights) =
      weights.map fun w => (w.1, (settledUnits units part weights key w : ℚ) / 10 ^ places) := by
  have hsum : ((unitShares part weights).map Prod.snd).sum =
      ((weights.map fun w => part w.2).sum : ℤ) / 10 ^ places := by
    unfold unitShares
    induction weights with
    | nil => simp
    | cons w rest ih =>
      simp only [List.map_cons, List.sum_cons, ih]
      push_cast
      ring
  unfold exactSettle
  simp only [hsum]
  rw [unitShares, List.map_map]
  apply List.map_congr_left
  intro w _
  by_cases hkey : w.1 = key
  · -- the largest key takes what rounding left
    simp only [Function.comp_apply, hkey, if_true, settledUnits, overpaid]
    push_cast
    rw [Prod.mk.injEq]
    exact ⟨rfl, by ring⟩
  · simp [hkey, settledUnits]

/-- Only one weight pays. -/
private theorem sum_settledUnits (hnodup : (weights.map Prod.fst).Nodup)
    (hkey : key ∈ weights.map Prod.fst) :
    (weights.map (settledUnits units part weights key)).sum = units := by
  obtain ⟨m, hm, rfl⟩ := List.mem_map.mp hkey
  -- the difference is taken off once, as the keys are distinct
  have hpays : ∀ l : List (String × ℕ), (l.map Prod.fst).Nodup →
      (l.map fun w => part w.2 - if w.1 = m.1 then overpaid units part weights else 0).sum =
        (l.map fun w => part w.2).sum -
          if m.1 ∈ l.map Prod.fst then overpaid units part weights else 0 := by
    intro l hl
    induction l with
    | nil => simp
    | cons w rest ih =>
      rw [List.map_cons, List.nodup_cons] at hl
      simp only [List.map_cons, List.sum_cons, ih hl.2, List.mem_cons]
      by_cases hw : w.1 = m.1
      · rw [if_pos hw, if_pos (Or.inl hw.symm), if_neg (hw ▸ hl.1)]
        ring
      · have hne : m.1 ≠ w.1 := fun h => hw h.symm
        simp only [hw, if_false, hne, false_or]
        ring
  unfold settledUnits
  rw [hpays weights hnodup, if_pos hkey, overpaid]
  ring

/-- **Settled parts are fair** exactly if what was handed out beyond the units there are is no more
than the largest part, and no more than what it is ahead of any smaller weight's. -/
theorem fair_exactSettle_iff (hnodup : (weights.map Prod.fst).Nodup)
    (hlargest : largest weights = some key) (hmono : Monotone part) (hnonneg : ∀ w, 0 ≤ part w) :
    Fair (units / 10 ^ places) weights
        (exactSettle (units / 10 ^ places) key (unitShares part weights)) ↔
      ∀ m ∈ weights, (∀ w ∈ weights, w.2 ≤ m.2) →
        overpaid units part weights ≤ part m.2 ∧
          ∀ w ∈ weights, w.2 < m.2 → overpaid units part weights ≤ part m.2 - part w.2 := by
  have hscale : (0 : ℚ) < 10 ^ places := by positivity
  obtain ⟨top, htop, hkey, hmax⟩ := exists_largest hlargest
  -- The key is that of one weight, and every other weight is left its part.
  have htopUnits : settledUnits units part weights key top =
      part top.2 - overpaid units part weights := by
    rw [settledUnits, if_pos hkey]
  have hunique : ∀ w ∈ weights, w.1 = key → w = top := by
    intro w hw hwkey
    exact List.inj_on_of_nodup_map hnodup hw htop (hwkey.trans hkey.symm)
  have hotherUnits : ∀ w, w.1 ≠ key → settledUnits units part weights key w = part w.2 := by
    intro w hw
    rw [settledUnits, if_neg hw, sub_zero]
  rw [exactSettle_unitShares]
  constructor
  · intro hfair m hm hmmax
    have heq : m.2 = top.2 := le_antisymm (hmax m hm) (hmmax top htop)
    rw [heq]
    have hmem : ∀ w ∈ weights, (w.1, (settledUnits units part weights key w : ℚ) / 10 ^ places) ∈
        weights.map fun w => (w.1, (settledUnits units part weights key w : ℚ) / 10 ^ places) :=
      fun w hw => List.mem_map.mpr ⟨w, hw, rfl⟩
    constructor
    · have h := hfair.nonneg _ (hmem top htop)
      rw [htopUnits, le_div_iff₀ hscale, zero_mul, Int.cast_nonneg_iff] at h
      omega
    · intro w hw hlt
      have h := hfair.monotone w hw top htop hlt _ (hmem w hw) _ (hmem top htop) rfl rfl
      have hwkey : w.1 ≠ key := by
        intro hwkey
        rw [hunique w hw hwkey] at hlt
        exact lt_irrefl _ hlt
      rw [htopUnits, hotherUnits w hwkey, div_le_div_iff_of_pos_right hscale, Int.cast_le] at h
      omega
  · intro hroom
    obtain ⟨hpays, hahead⟩ := hroom top htop hmax
    constructor
    · rw [List.map_map]
      rfl
    · have hsum : ∀ (f : String × ℕ → ℤ) (l : List (String × ℕ)),
          ((l.map fun w => (w.1, (f w : ℚ) / 10 ^ places)).map Prod.snd).sum =
            ((l.map f).sum : ℤ) / 10 ^ places := by
        intro f l
        induction l with
        | nil => simp
        | cons w rest ih =>
          simp only [List.map_cons, List.sum_cons, ih]
          push_cast
          ring
      rw [hsum, sum_settledUnits hnodup (hkey ▸ List.mem_map_of_mem htop), Int.cast_natCast]
    · intro s hs
      obtain ⟨w, hw, rfl⟩ := List.mem_map.mp hs
      apply div_nonneg _ hscale.le
      rw [Int.cast_nonneg_iff]
      by_cases hwkey : w.1 = key
      · rw [hunique w hw hwkey, htopUnits]
        omega
      · rw [hotherUnits w hwkey]
        exact hnonneg w.2
    · intro v hv w hw hlt s hs t ht hsv htw
      obtain ⟨v', hv', rfl⟩ := List.mem_map.mp hs
      obtain ⟨w', hw', rfl⟩ := List.mem_map.mp ht
      obtain rfl := List.inj_on_of_nodup_map hnodup hv' hv hsv
      obtain rfl := List.inj_on_of_nodup_map hnodup hw' hw htw
      rw [div_le_div_iff_of_pos_right hscale, Int.cast_le]
      -- The smaller of two weights is not the largest.
      have hvkey : v'.1 ≠ key := by
        intro hvkey
        rw [hunique v' hv hvkey] at hlt
        exact absurd (hmax w' hw) (not_le.mpr hlt)
      rw [hotherUnits v' hvkey]
      by_cases hwkey : w'.1 = key
      · rw [hunique w' hw hwkey] at hlt ⊢
        rw [htopUnits]
        have := hahead v' hv hlt
        omega
      · rw [hotherUnits w' hwkey]
        exact hmono hlt.le

end Settle

/-! ## Rounding whole units -/

section Rounding

variable (units : ℕ) (weights : List (String × ℕ))

/-- What the weights add up to. -/
def wholeOf : ℕ := (weights.map Prod.snd).sum

/-- The units that rounding each share to the nearest one hands out beyond what there is: one for
each share that is rounded up, less the units that the remainders make up. -/
def gained : ℤ :=
  (weights.countP fun w => RoundsUp (units * w.2) (wholeOf weights)) -
    ((weights.map fun w => units * w.2 % wholeOf weights).sum / wholeOf weights : ℕ)

/-- **The room for rounding**: what it hands out beyond the units there are is no more than the
largest weight's rounded share, and no more than what that is ahead of any smaller weight's. -/
def RoundsWithin : Prop :=
  ∀ m ∈ weights, (∀ w ∈ weights, w.2 ≤ m.2) →
    gained units weights ≤ nearest (units * m.2) (wholeOf weights) ∧
      ∀ w ∈ weights, w.2 < m.2 → gained units weights ≤
        (nearest (units * m.2) (wholeOf weights) : ℤ) - nearest (units * w.2) (wholeOf weights)

instance : Decidable (RoundsWithin units weights) :=
  inferInstanceAs (Decidable (∀ m ∈ weights, (∀ w ∈ weights, w.2 ≤ m.2) → _ ∧
    ∀ w ∈ weights, w.2 < m.2 → _))

variable {units weights}

theorem wholeOf_pos (hne : weights ≠ []) (hpos : ∀ w ∈ weights, 0 < w.2) : 0 < wholeOf weights := by
  obtain ⟨w, hw⟩ := List.exists_mem_of_ne_nil _ hne
  have hle : w.2 ≤ wholeOf weights :=
    List.single_le_sum (fun _ _ => Nat.zero_le _) _ (List.mem_map_of_mem hw)
  exact (hpos w hw).trans_le hle

/-- Quotients and remainders of the weights' parts, added up. -/
private theorem sum_div_add_mod (units : ℕ) (weights : List (String × ℕ)) (whole : ℕ) :
    whole * (weights.map fun w => units * w.2 / whole).sum +
      (weights.map fun w => units * w.2 % whole).sum = units * wholeOf weights := by
  unfold wholeOf
  induction weights with
  | nil => simp
  | cons w rest ih =>
    have hdiv := Nat.div_add_mod (units * w.2) whole
    simp only [List.map_cons, List.sum_cons, mul_add]
    rw [← ih]
    omega

/-- The quotients are the units, less those the remainders make up. -/
private theorem sum_div (units : ℕ) (hwhole : 0 < wholeOf weights) :
    (weights.map fun w => units * w.2 / wholeOf weights).sum +
      (weights.map fun w => units * w.2 % wholeOf weights).sum / wholeOf weights = units := by
  have hsum := sum_div_add_mod units weights (wholeOf weights)
  have hquotient := congrArg (· / wholeOf weights) hsum
  simp only [Nat.mul_add_div hwhole, Nat.mul_div_cancel _ hwhole] at hquotient
  exact hquotient

/-- What is handed out when each share is cut down is within the units. -/
private theorem overpaid_div_nonpos (units : ℕ) (hwhole : 0 < wholeOf weights) :
    overpaid units (fun w => (units * w / wholeOf weights : ℕ)) weights ≤ 0 := by
  have hsum := sum_div units hwhole
  have hcast : (weights.map fun w => ((units * w.2 / wholeOf weights : ℕ) : ℤ)).sum =
      ((weights.map fun w => units * w.2 / wholeOf weights).sum : ℕ) := by
    rw [Nat.cast_list_sum, List.map_map]
    rfl
  have hle : (weights.map fun w => units * w.2 / wholeOf weights).sum ≤ units :=
    Nat.le.intro hsum
  unfold overpaid
  rw [hcast, sub_nonpos, Nat.cast_le]
  exact hle

/-- What is handed out beyond the units when each share is rounded to the nearest one. -/
private theorem overpaid_nearest (hwhole : 0 < wholeOf weights) :
    overpaid units (fun w => nearest (units * w) (wholeOf weights)) weights =
      gained units weights := by
  have hsum := sum_div units hwhole
  -- each share is its quotient, and one more where it is rounded up
  have hups : ∀ l : List (String × ℕ),
      (l.map fun w => (nearest (units * w.2) (wholeOf weights) : ℤ)).sum =
        ((l.map fun w => units * w.2 / wholeOf weights).sum : ℕ) +
          (l.countP fun w => RoundsUp (units * w.2) (wholeOf weights)) := by
    intro l
    induction l with
    | nil => simp
    | cons w rest ih =>
      have hw : (nearest (units * w.2) (wholeOf weights) : ℤ) =
          (units * w.2 / wholeOf weights : ℕ) +
            ((if RoundsUp (units * w.2) (wholeOf weights) then 1 else 0 : ℕ) : ℤ) :=
        Nat.cast_add _ _
      simp only [List.map_cons, List.sum_cons, List.countP_cons, decide_eq_true_eq]
      rw [ih, hw, Nat.cast_add, Nat.cast_add]
      ring
  unfold overpaid gained
  rw [hups]
  omega

/-- The parts of exact shares, in units. -/
private theorem map_exactPart (mode : ℚ → ℤ) (whole : ℕ) :
    weights.map (exactPart mode (units / 10 ^ places) whole) =
      unitShares (fun w => mode ((units * w : ℕ) / whole)) weights := by
  apply List.map_congr_left
  intro w _
  have hscale : (10 : ℚ) ^ places ≠ 0 := by positivity
  have hratio : (units : ℚ) / 10 ^ places * w.2 / whole * 10 ^ places =
      ((units * w.2 : ℕ) : ℚ) / whole := by
    push_cast
    field_simp
  rw [exactPart, hratio]

private theorem exactApportion_eq {mode : ℚ → ℤ} {key : String}
    (hlargest : largest weights = some key) :
    exactApportion mode (units / 10 ^ places) weights =
      exactSettle (units / 10 ^ places) key
        (unitShares (fun w => mode ((units * w : ℕ) / wholeOf weights)) weights) := by
  unfold exactApportion
  rw [hlargest]
  simp only [map_exactPart]
  rfl

/-- Cutting each share down is fair. -/
private theorem fair_exactSplit (hnodup : (weights.map Prod.fst).Nodup)
    (hwhole : 0 < wholeOf weights) {key : String} (hlargest : largest weights = some key) :
    Fair (units / 10 ^ places) weights (exactSplit (units / 10 ^ places) weights) := by
  have hpart : ∀ w : ℕ, down (((units * w : ℕ) : ℚ) / wholeOf weights) =
      (units * w / wholeOf weights : ℕ) := by
    intro w
    rw [down_of_nonneg (by positivity), Rat.floor_natCast_div_natCast]
    norm_cast
  have hmono : Monotone fun w : ℕ => ((units * w / wholeOf weights : ℕ) : ℤ) := by
    intro v w hle
    have hdiv : units * v / wholeOf weights ≤ units * w / wholeOf weights :=
      Nat.div_le_div_right (Nat.mul_le_mul_left units hle)
    exact Int.ofNat_le.mpr hdiv
  have hover := overpaid_div_nonpos units hwhole
  unfold exactSplit
  rw [exactApportion_eq hlargest]
  simp only [hpart]
  apply (fair_exactSettle_iff hnodup hlargest hmono fun w => Int.natCast_nonneg _).mpr
  intro m _ _
  constructor
  · exact hover.trans (Int.natCast_nonneg _)
  · intro w _ hlt
    have hle := hmono hlt.le
    simp only at hle
    omega

/-- Rounding each share to the nearest unit is fair where there is room. -/
private theorem fair_exactShare_iff (hnodup : (weights.map Prod.fst).Nodup)
    (hpos : ∀ w ∈ weights, 0 < w.2) (hwhole : 0 < wholeOf weights) {key : String}
    (hlargest : largest weights = some key) :
    Fair (units / 10 ^ places) weights (exactShare (units / 10 ^ places) weights) ↔
      RoundsWithin units weights := by
  have hpart : ∀ w : ℕ, halfEven (((units * w : ℕ) : ℚ) / wholeOf weights) =
      nearest (units * w) (wholeOf weights) := fun w => halfEven_div _ hwhole
  have hmono : Monotone fun w : ℕ => (nearest (units * w) (wholeOf weights) : ℤ) := by
    intro v w hle
    simp only [← hpart]
    apply halfEven_mono
    gcongr
  have hfilter : (weights.filter fun w => 0 < w.2) = weights := by
    rw [List.filter_eq_self]
    intro w hw
    exact decide_eq_true (hpos w hw)
  unfold exactShare
  rw [hfilter, exactApportion_eq hlargest]
  simp only [hpart]
  rw [fair_exactSettle_iff hnodup hlargest hmono fun w => Int.natCast_nonneg _,
    overpaid_nearest hwhole]
  rfl

end Rounding

/-! ## Shares of 28 digits -/

section Digits

variable {units : ℕ} {weights : List (String × ℕ)} {mode : ℚ → ℤ} {slack : ℚ}

/-- A share is computed exactly, if the product has 27 digits at most. -/
private theorem partOf_eq_exact (hmode : Mode mode slack) (hbetween : BetweenHalves mode)
    (hslack : slack ≤ 1) {whole : ℕ} {w : String × ℕ} (hwhole : 0 < whole)
    (hdigits : units * w.2 < 10 ^ 27) :
    partOf mode (units / 10 ^ places) whole w =
      .ok (exactPart mode (units / 10 ^ places) whole w) := by
  have hscale : (0 : ℚ) < 10 ^ places := by positivity
  have hproduct : (units : ℚ) / 10 ^ places * w.2 = (units * w.2 : ℕ) / 10 ^ places := by
    push_cast
    ring
  have hdigits' : ((units * w.2 : ℕ) : ℚ) < 10 ^ 27 := by exact_mod_cast hdigits
  -- the product has few enough digits to be exact
  have htimes : times (units / 10 ^ places) w.2 = (units * w.2 : ℕ) / 10 ^ places := by
    unfold times
    rw [hproduct]
    apply inContext_kept ⟨(units * w.2 : ℕ), by rw [Int.cast_natCast]⟩
    rw [abs_of_nonneg (by positivity), div_lt_iff₀ hscale]
    refine hdigits'.trans ?_
    norm_num [places]
  -- rounding the quotient to 28 digits first does not move it over a half
  have hrounded : mode (dividedBy (times (units / 10 ^ places) w.2) whole * 10 ^ places) =
      mode ((units * w.2 : ℕ) / whole) := by
    unfold dividedBy
    rw [htimes, div_right_comm]
    exact mode_inContext hbetween (by decide) hwhole hdigits
  have hratio : (units : ℚ) / 10 ^ places * w.2 / whole * 10 ^ places =
      ((units * w.2 : ℕ) : ℚ) / whole := by
    rw [hproduct]
    field_simp
  -- so quantizing it does not raise
  have hfits : |(mode (dividedBy (times (units / 10 ^ places) w.2) whole * 10 ^ places) : ℚ)| <
      10 ^ precision := by
    rw [hrounded]
    have hle := hmode.abs_le (((units * w.2 : ℕ) : ℚ) / whole)
    have hone : ((units * w.2 : ℕ) : ℚ) / whole ≤ (units * w.2 : ℕ) :=
      div_le_self (by positivity) (by exact_mod_cast hwhole)
    rw [abs_of_nonneg (a := ((units * w.2 : ℕ) : ℚ) / whole) (by positivity)] at hle
    have hpow : (10 : ℚ) ^ 27 + 1 < 10 ^ precision := by norm_num [precision]
    linarith
  refine bind_eq_ok.mpr ⟨(), raiseIf_eq_ok.mpr hwhole.ne', bind_eq_ok.mpr ⟨_, quantize_ok hfits, ?_⟩⟩
  rw [hrounded, exactPart, hratio]
  rfl

/-- What is left is settled exactly, if the parts are short. -/
private theorem settle_eq_exact {amount bound : ℚ} {key : String} {parts : List (String × ℚ)}
    (hkept : Kept amount) (hparts : ∀ p ∈ parts, Kept p.2 ∧ 0 ≤ p.2) (hamount : |amount| ≤ bound)
    (hsum : (parts.map Prod.snd).sum ≤ bound) (hbound : 3 * bound < 10 ^ 16) :
    settle amount key parts = exactSettle amount key parts := by
  have hpartsKept : ∀ a ∈ parts.map Prod.snd, Kept a := by
    intro a ha
    obtain ⟨p, hp, rfl⟩ := List.mem_map.mp ha
    exact (hparts p hp).1
  have hpartsNonneg : ∀ a ∈ parts.map Prod.snd, 0 ≤ a := by
    intro a ha
    obtain ⟨p, hp, rfl⟩ := List.mem_map.mp ha
    exact (hparts p hp).2
  have hnonneg := List.sum_nonneg hpartsNonneg
  obtain ⟨hlow, hhigh⟩ := abs_le.mp hamount
  -- every sum on the way stays below the digits that are kept
  have hexact : sumUsd (parts.map Prod.snd) = (parts.map Prod.snd).sum := by
    apply sumUsd_eq hpartsKept
    rw [size_of_nonneg hpartsNonneg]
    linarith
  have hleftKept : Kept (amount - (parts.map Prod.snd).sum) := hkept.sub (OnGrid.sum hpartsKept)
  have hleft : minus amount (sumUsd (parts.map Prod.snd)) = amount - (parts.map Prod.snd).sum := by
    rw [hexact]
    apply inContext_kept hleftKept
    rw [abs_lt]
    constructor <;> linarith
  unfold settle exactSettle
  simp only [hleft]
  apply List.map_congr_left
  intro p hp
  have hle : p.2 ≤ (parts.map Prod.snd).sum :=
    List.single_le_sum hpartsNonneg _ (List.mem_map_of_mem hp)
  have hplus : plus p.2 (amount - (parts.map Prod.snd).sum) =
      p.2 + (amount - (parts.map Prod.snd).sum) := by
    apply inContext_kept ((hparts p hp).1.add hleftKept)
    have := (hparts p hp).2
    rw [abs_lt]
    constructor <;> linarith
  rw [hplus]

/-- **The shares of 28 digits are the exact ones**, while the units times the weights have 27. -/
theorem apportion_eq_exact (hmode : Mode mode slack) (hbetween : BetweenHalves mode)
    (hslack : slack ≤ 1) (hnodup : (weights.map Prod.fst).Nodup) (hwhole : 0 < wholeOf weights)
    (hdigits : units * wholeOf weights < 10 ^ 27) (hlength : units + weights.length < 10 ^ 27) :
    apportion mode (units / 10 ^ places) weights =
      .ok (exactApportion mode (units / 10 ^ places) weights) := by
  have hscale : (0 : ℚ) < 10 ^ places := by positivity
  obtain ⟨key, hlargest⟩ : ∃ key, largest weights = some key := by
    apply Option.ne_none_iff_exists'.mp
    rw [ne_eq, largest_eq_none]
    rintro rfl
    exact lt_irrefl _ hwhole
  have hparts : weights.mapM (partOf mode (units / 10 ^ places) (weights.map Prod.snd).sum) =
      .ok (weights.map (exactPart mode (units / 10 ^ places) (wholeOf weights))) := by
    rw [mapM_eq_ok_iff, List.forall₂_map_right_iff, List.forall₂_same]
    intro w hw
    apply partOf_eq_exact hmode hbetween hslack hwhole
    have hle : w.2 ≤ wholeOf weights :=
      List.single_le_sum (fun _ _ => Nat.zero_le _) _ (List.mem_map_of_mem hw)
    exact (Nat.mul_le_mul_left units hle).trans_lt hdigits
  have hkeys : (weights.map (exactPart mode (units / 10 ^ places) (wholeOf weights))).map
      Prod.fst = weights.map Prod.fst := by
    rw [List.map_map]
    rfl
  -- A share is at most a unit above what it is before it is rounded.
  have hsum : ((weights.map (exactPart mode (units / 10 ^ places) (wholeOf weights))).map
      Prod.snd).sum ≤ (units + weights.length) / 10 ^ places := by
    have hgen : ∀ l : List (String × ℕ),
        ((l.map (exactPart mode (units / 10 ^ places) (wholeOf weights))).map Prod.snd).sum ≤
          (units * (l.map Prod.snd).sum / wholeOf weights + l.length) / 10 ^ places := by
      intro l
      induction l with
      | nil => simp
      | cons w rest ih =>
        have hle := hmode.abs_le (((units * w.2 : ℕ) : ℚ) / wholeOf weights)
        rw [abs_of_nonneg (a := ((units * w.2 : ℕ) : ℚ) / wholeOf weights) (by positivity)] at hle
        have hratio : (units : ℚ) / 10 ^ places * w.2 / wholeOf weights * 10 ^ places =
            ((units * w.2 : ℕ) : ℚ) / wholeOf weights := by
          push_cast
          field_simp
        have hpart := (le_abs_self _).trans hle
        simp only [List.map_cons, List.sum_cons, List.length_cons, exactPart, hratio]
        calc _ ≤ (((units * w.2 : ℕ) : ℚ) / wholeOf weights + slack) / 10 ^ places +
              (units * (rest.map Prod.snd).sum / wholeOf weights + rest.length) / 10 ^ places := by
              gcongr
          _ = (units * (w.2 + (rest.map Prod.snd).sum) / wholeOf weights +
                (rest.length + slack)) / 10 ^ places := by
              push_cast
              ring
          _ ≤ _ := by
              push_cast
              gcongr
    have hall := hgen weights
    have hwhole' : (wholeOf weights : ℚ) ≠ 0 := by exact_mod_cast hwhole.ne'
    rwa [show ((weights.map Prod.snd).sum : ℚ) = wholeOf weights from rfl,
      mul_div_cancel_right₀ _ hwhole'] at hall
  unfold apportion exactApportion
  rw [hparts, hlargest]
  simp only [wholeOf] at hkeys hsum ⊢
  refine bind_eq_ok.mpr ⟨_, rfl, ?_⟩
  rw [dictOf_of_nodup (hkeys ▸ hnodup)]
  refine congrArg Except.ok (settle_eq_exact ⟨units, by rw [Int.cast_natCast]⟩ ?_ ?_ hsum ?_)
  · intro p hp
    obtain ⟨w, -, rfl⟩ := List.mem_map.mp hp
    refine ⟨⟨_, rfl⟩, div_nonneg (Int.cast_nonneg_iff.mpr (hmode.nonneg ?_)) hscale.le⟩
    positivity
  · rw [abs_of_nonneg (by positivity)]
    gcongr
    linarith [weights.length.cast_nonneg (α := ℚ)]
  · have hlength' : (units : ℚ) + weights.length < 10 ^ 27 := by exact_mod_cast hlength
    rw [← mul_div_assoc, div_lt_iff₀ hscale]
    have hpow : (3 : ℚ) * 10 ^ 27 < 10 ^ 16 * 10 ^ places := by norm_num [places]
    linarith

/-- What `share` computes is the exact share, of shares that 27 digits hold. -/
theorem share_eq_exact (hne : weights ≠ []) (hnodup : (weights.map Prod.fst).Nodup)
    (hpos : ∀ w ∈ weights, 0 < w.2) (hdigits : units * wholeOf weights < 10 ^ 27)
    (hlength : units + weights.length < 10 ^ 27) :
    share (units / 10 ^ places) weights = .ok (exactShare (units / 10 ^ places) weights) := by
  have hfilter : (weights.filter fun w => 0 < w.2) = weights := by
    rw [List.filter_eq_self]
    intro w hw
    exact decide_eq_true (hpos w hw)
  unfold share exactShare
  simp only [hfilter, hne, if_false]
  exact apportion_eq_exact mode_halfEven betweenHalves_halfEven (by norm_num) hnodup
    (wholeOf_pos hne hpos) hdigits hlength

/-- What `split` computes is the exact share, of shares that 27 digits hold. -/
theorem split_eq_exact (hne : weights ≠ []) (hnodup : (weights.map Prod.fst).Nodup)
    (hpos : ∀ w ∈ weights, 0 < w.2) (hdigits : units * wholeOf weights < 10 ^ 27)
    (hlength : units + weights.length < 10 ^ 27) :
    split (units / 10 ^ places) weights = .ok (exactSplit (units / 10 ^ places) weights) :=
  apportion_eq_exact mode_down betweenHalves_down (by norm_num) hnodup (wholeOf_pos hne hpos)
    hdigits hlength

end Digits

/-! ## Every cost -/

/-- **Fair shares**: of every whole number of units, over every map of positive weights, `split` is
fair, and `share` is fair exactly where rounding has room. -/
theorem fair_shares (units : ℕ) {weights : List (String × ℕ)} (hne : weights ≠ [])
    (hnodup : (weights.map Prod.fst).Nodup) (hpos : ∀ w ∈ weights, 0 < w.2) :
    (Fair (units / 10 ^ places) weights (exactShare (units / 10 ^ places) weights) ↔
        RoundsWithin units weights) ∧
      Fair (units / 10 ^ places) weights (exactSplit (units / 10 ^ places) weights) := by
  obtain ⟨key, hlargest⟩ : ∃ key, largest weights = some key := by
    apply Option.ne_none_iff_exists'.mp
    rw [ne_eq, largest_eq_none]
    exact hne
  have hwhole := wholeOf_pos hne hpos
  exact ⟨fair_exactShare_iff hnodup hpos hwhole hlargest, fair_exactSplit hnodup hwhole hlargest⟩

/-- Three units for five keys of one weight. -/
def fiveAlike : List (String × ℕ) := [("a", 1), ("b", 1), ("c", 1), ("d", 1), ("e", 1)]

/-- Each share is rounded up to one unit, and the first pays back two. -/
theorem share_below_zero :
    share (3 / 10 ^ places) fiveAlike = .ok (exactShare (3 / 10 ^ places) fiveAlike) ∧
      ¬ Fair (3 / 10 ^ places) fiveAlike (exactShare (3 / 10 ^ places) fiveAlike) := by
  have hshares : exactShare (3 / 10 ^ places) fiveAlike = [("a", -1 / 10 ^ places),
      ("b", 1 / 10 ^ places), ("c", 1 / 10 ^ places), ("d", 1 / 10 ^ places),
      ("e", 1 / 10 ^ places)] := by decide +kernel
  constructor
  · decide +kernel
  · intro hfair
    have hneg := hfair.nonneg ("a", -1 / 10 ^ places) (hshares ▸ List.mem_cons_self ..)
    norm_num [places] at hneg

/-- Three queries of a gigabyte share two millionths of a dollar: all are rounded up, and the one that
read a byte more pays for it. -/
example : ¬ RoundsWithin 2000000
    [("a", 1000000001), ("b", 1000000000), ("c", 1000000000)] := by decide

/-- With seven units of the five there is room: the first pays back none. -/
theorem fair_shares_seven :
    Fair (7 / 10 ^ places) fiveAlike (exactShare (7 / 10 ^ places) fiveAlike) :=
  (fair_shares 7 (by decide) (by decide) (by decide)).1.mpr (by decide +kernel)

end PlatformOps.Cost
