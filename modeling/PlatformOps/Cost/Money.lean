import PlatformOps.Library.Decimals
import PlatformOps.Library.Fallible
import PlatformOps.Library.Listing

/-!
# Money

Amounts are decimals of the standard library in its default context, 28 significant
digits, and are kept at 12 decimals. Below `10 ^ 16` dollars such an amount has at
most 28 digits, so adding amounts that stay below it is exact.

A cost is shared by rounding each share to 12 decimals and giving what is left to
the one with the largest weight (`settle`). The shares then add up to the cost, as
long as they stay below `10 ^ 16` dollars while they are added.
-/

namespace PlatformOps.Cost

open Listing Decimals Fallible

/-! ## Decimals in the default context -/

/-- The precision of the default context. -/
def precision : ℕ := 28

/-- The decimals money is kept at: `MICRO` and `QUANTUM` are `10 ^ -12`. -/
def places : ℕ := 12

def plus (a b : ℚ) : ℚ := inContext precision (a + b)
def minus (a b : ℚ) : ℚ := inContext precision (a - b)
def times (a b : ℚ) : ℚ := inContext precision (a * b)
def dividedBy (a b : ℚ) : ℚ := inContext precision (a / b)

/-- `sum(amounts)`. -/
def sumUsd (amounts : List ℚ) : ℚ := total precision amounts

/-- `x.quantize(MICRO)`. -/
def toMicro (x : ℚ) : Except String ℚ := quantize precision places halfEven x

/-- An amount kept at 12 decimals. -/
abbrev Kept (x : ℚ) : Prop := OnGrid places x

/-- The largest weight's key, of those the smallest. -/
def largest (weights : List (String × ℕ)) : Option String :=
  ((sortBy (fun w => toLex (-(w.2 : ℤ), w.1)) weights).head?).map Prod.fst

/-- `parts[largest] += total - sum(parts.values())`. -/
def settle (total : ℚ) (largest : String) (parts : List (String × ℚ)) : List (String × ℚ) :=
  let left := minus total (sumUsd (parts.map Prod.snd))
  -- the rounding that is left goes to the largest weight, as it is
  parts.map fun part => if part.1 = largest then (part.1, plus part.2 left) else part

/-- One share of an amount, rounded in a mode; no share can be taken of weights that are all
zero. -/
def partOf (mode : ℚ → ℤ) (amount : ℚ) (whole : ℕ) (w : String × ℕ) :
    Except String (String × ℚ) := do
  raiseIf (whole = 0) "decimal.InvalidOperation"
  let part ← quantize precision places mode (dividedBy (times amount w.2) whole)
  return (w.1, part)

/-- An amount shared by weights, what is left settled; an empty sequence has no largest weight. -/
def apportion (mode : ℚ → ℤ) (amount : ℚ) (weights : List (String × ℕ)) :
    Except String (List (String × ℚ)) := do
  let parts ← weights.mapM (partOf mode amount (weights.map Prod.snd).sum)
  match largest weights with
  | none => .error "min() iterable argument is empty"
  | some key => return settle amount key (dictOf parts)

/-! ## What is exact -/

section Exact

variable {a b : ℚ} {amounts : List ℚ}

/-- The absolute values, added up. -/
def size (amounts : List ℚ) : ℚ := (amounts.map (|·|)).sum

@[simp] theorem size_nil : size [] = 0 := rfl

@[simp] theorem size_cons (a : ℚ) (amounts : List ℚ) : size (a :: amounts) = |a| + size amounts :=
  rfl

@[simp] theorem size_append (amounts more : List ℚ) :
    size (amounts ++ more) = size amounts + size more := by
  simp [size]

theorem size_nonneg (amounts : List ℚ) : 0 ≤ size amounts := by
  induction amounts with
  | nil => exact le_rfl
  | cons a rest ih =>
    rw [size_cons]
    exact add_nonneg (abs_nonneg a) ih

theorem sum_le_size (amounts : List ℚ) : amounts.sum ≤ size amounts := by
  induction amounts with
  | nil => exact le_rfl
  | cons a rest ih =>
    rw [List.sum_cons, size_cons]
    exact add_le_add (le_abs_self a) ih

theorem size_perm {amounts more : List ℚ} (h : amounts.Perm more) : size amounts = size more :=
  (h.map _).sum_eq

theorem size_le_of_sublist {amounts more : List ℚ} (h : amounts.Sublist more) :
    size amounts ≤ size more := by
  induction h with
  | slnil => exact le_rfl
  | cons a _ ih =>
    rw [size_cons]
    linarith [abs_nonneg a]
  | cons_cons a _ ih =>
    rw [size_cons, size_cons]
    linarith

theorem size_of_nonneg (h : ∀ a ∈ amounts, 0 ≤ a) : size amounts = amounts.sum := by
  unfold size
  rw [List.map_congr_left fun a ha => abs_of_nonneg (h a ha), List.map_id']

theorem size_of_nonpos (h : ∀ a ∈ amounts, a ≤ 0) : size amounts = -amounts.sum := by
  induction amounts with
  | nil => simp
  | cons a rest ih =>
    obtain ⟨ha, hrest⟩ := List.forall_mem_cons.mp h
    rw [size_cons, ih hrest, abs_of_nonpos ha, List.sum_cons]
    ring

theorem sumUsd_eq (hkept : ∀ a ∈ amounts, Kept a) (hsize : size amounts < 10 ^ 16) :
    sumUsd amounts = amounts.sum := by
  apply total_eq_sum hkept
  have hscaled : size amounts * 10 ^ places < 10 ^ 16 * 10 ^ places :=
    mul_lt_mul_of_pos_right hsize (by positivity)
  refine hscaled.trans_eq ?_
  norm_num [places, precision]

theorem inContext_kept (hkept : Kept a) (hsmall : |a| < 10 ^ 16) : inContext precision a = a := by
  apply inContext_eq_self hkept
  have hscaled : |a| * 10 ^ places < 10 ^ 16 * 10 ^ places :=
    mul_lt_mul_of_pos_right hsmall (by positivity)
  refine hscaled.trans_eq ?_
  norm_num [places, precision]

/-- A quantized amount that was not negative. -/
theorem toMicro_spec {x usd : ℚ} (h : toMicro x = .ok usd) (hx : 0 ≤ x) : Kept usd ∧ 0 ≤ usd := by
  obtain ⟨rfl, hgrid⟩ := quantize_eq_ok h
  have hscale : (0 : ℚ) ≤ 10 ^ places := by positivity
  have hround := halfEven_nonneg (mul_nonneg hx hscale)
  exact ⟨hgrid, div_nonneg (by exact_mod_cast hround) hscale⟩

theorem times_nonneg {a b : ℚ} (ha : 0 ≤ a) (hb : 0 ≤ b) : 0 ≤ times a b :=
  inContext_nonneg (mul_nonneg ha hb)

theorem dividedBy_nonneg {a b : ℚ} (ha : 0 ≤ a) (hb : 0 ≤ b) : 0 ≤ dividedBy a b :=
  inContext_nonneg (div_nonneg ha hb)

theorem largest_mem {weights : List (String × ℕ)} {key : String}
    (h : largest weights = some key) : key ∈ weights.map Prod.fst := by
  obtain ⟨w, hw, rfl⟩ := Option.map_eq_some_iff.mp h
  exact List.mem_map_of_mem (mem_sortBy.mp (List.mem_of_mem_head? hw))

theorem largest_eq_none {weights : List (String × ℕ)} : largest weights = none ↔ weights = [] := by
  have hperm := perm_sortBy (fun w : String × ℕ => toLex (-(w.2 : ℤ), w.1)) weights
  rw [largest, Option.map_eq_none_iff, List.head?_eq_none_iff]
  constructor
  · intro hnil
    rw [hnil] at hperm
    exact List.nil_perm.mp hperm
  · rintro rfl
    exact List.perm_nil.mp hperm

end Exact

/-! ## Settling -/

/-- What the parts of a settled amount are. -/
structure Settled (amount excess : ℚ) (keys : List String) (parts : List (String × ℚ)) : Prop where
  keys : parts.map Prod.fst = keys
  kept : ∀ a ∈ parts.map Prod.snd, Kept a
  sum : (parts.map Prod.snd).sum = amount
  size : size (parts.map Prod.snd) ≤ |amount| + excess

/-- Amounts on one side of zero. -/
def SameSide (amount : ℚ) (amounts : List ℚ) : Prop :=
  (0 ≤ amount ∧ ∀ a ∈ amounts, 0 ≤ a) ∨ (amount ≤ 0 ∧ ∀ a ∈ amounts, a ≤ 0)

theorem SameSide.mono {amount : ℚ} {amounts more : List ℚ} (h : SameSide amount amounts)
    (hsub : ∀ a ∈ more, a ∈ amounts) : SameSide amount more :=
  h.imp (fun h => ⟨h.1, fun a ha => h.2 a (hsub a ha)⟩)
    fun h => ⟨h.1, fun a ha => h.2 a (hsub a ha)⟩

/-- The difference between an amount and a sum on its side is no larger than either. -/
theorem SameSide.abs_sub_le {amount bound : ℚ} {amounts : List ℚ} (h : SameSide amount amounts)
    (hbound : size amounts ≤ bound) (hamount : |amount| ≤ bound) :
    |amount - amounts.sum| ≤ bound ∧
      size amounts + |amount - amounts.sum| ≤ 2 * bound - |amount| := by
  rcases h with ⟨hpos, hall⟩ | ⟨hneg, hall⟩
  · have hsum := List.sum_nonneg hall
    rw [size_of_nonneg hall] at hbound ⊢
    rw [abs_of_nonneg hpos] at hamount ⊢
    rcases le_total amounts.sum amount with hle | hle
    · rw [abs_of_nonneg (by linarith)]
      constructor <;> linarith
    · rw [abs_of_nonpos (by linarith)]
      constructor <;> linarith
  · have hsum : 0 ≤ -amounts.sum := size_of_nonpos hall ▸ size_nonneg amounts
    rw [size_of_nonpos hall] at hbound ⊢
    rw [abs_of_nonpos hneg] at hamount ⊢
    rcases le_total amounts.sum amount with hle | hle
    · rw [abs_of_nonneg (by linarith)]
      constructor <;> linarith
    · rw [abs_of_nonpos (by linarith)]
      constructor <;> linarith

/-- **What is left settles the amount**: the parts then add up to it exactly, if they exceed it by
little and stay below `10 ^ 16` dollars. -/
theorem settled_settle {amount excess : ℚ} {key : String} {parts : List (String × ℚ)}
    (hnodup : (parts.map Prod.fst).Nodup) (hkey : key ∈ parts.map Prod.fst) (hkept : Kept amount)
    (hparts : ∀ a ∈ parts.map Prod.snd, Kept a) (hside : SameSide amount (parts.map Prod.snd))
    (hsize : size (parts.map Prod.snd) ≤ |amount| + excess) (hexcess : 0 ≤ excess)
    (hlimit : |amount| + excess < 10 ^ 16) :
    Settled amount (2 * excess) (parts.map Prod.fst) (settle amount key parts) := by
  obtain ⟨⟨key, x⟩, hx, rfl⟩ := List.mem_map.mp hkey
  obtain ⟨before, after, rfl⟩ := List.append_of_mem hx
  -- The others are left as they are.
  let others := before.map Prod.snd ++ after.map Prod.snd
  have hall : ((before ++ (key, x) :: after).map Prod.snd).Perm (x :: others) := by
    rw [List.map_append, List.map_cons]
    exact List.perm_middle
  have hsub : ∀ a ∈ others, a ∈ (before ++ (key, x) :: after).map Prod.snd :=
    fun a ha => hall.mem_iff.mpr (List.mem_cons_of_mem _ ha)
  have hxmem : x ∈ (before ++ (key, x) :: after).map Prod.snd :=
    hall.mem_iff.mpr (List.mem_cons_self ..)
  have hsizeOthers : size others ≤ |amount| + excess := by
    rw [size_perm hall, size_cons] at hsize
    linarith [abs_nonneg x]
  have hgridOthers : Kept others.sum := OnGrid.sum fun a ha => hparts a (hsub a ha)
  -- Neither the sum, nor what is left, nor the corrected part is rounded.
  have hsum : sumUsd ((before ++ (key, x) :: after).map Prod.snd) = x + others.sum := by
    rw [sumUsd_eq hparts (lt_of_le_of_lt hsize hlimit), hall.sum_eq, List.sum_cons]
  obtain ⟨hleft, -⟩ := hside.abs_sub_le hsize (by linarith)
  rw [hall.sum_eq, List.sum_cons] at hleft
  have hminus : minus amount (x + others.sum) = amount - (x + others.sum) :=
    inContext_kept (hkept.sub ((hparts x hxmem).add hgridOthers)) (lt_of_le_of_lt hleft hlimit)
  obtain ⟨hcorrected, htotal⟩ := (hside.mono hsub).abs_sub_le hsizeOthers (by linarith)
  have hplus : plus x (amount - (x + others.sum)) = amount - others.sum := by
    have hvalue : x + (amount - (x + others.sum)) = amount - others.sum := by ring
    unfold plus
    rw [hvalue]
    exact inContext_kept (hkept.sub hgridOthers) (lt_of_le_of_lt hcorrected hlimit)
  have hsettle : settle amount key (before ++ (key, x) :: after) =
      before ++ (key, amount - others.sum) :: after := by
    rw [List.map_append, List.map_cons, List.nodup_append] at hnodup
    obtain ⟨-, hnodupAfter, hbefore⟩ := hnodup
    obtain ⟨hafter, -⟩ := List.nodup_cons.mp hnodupAfter
    have hkeep : ∀ (value : ℚ) (list : List (String × ℚ)), key ∉ list.map Prod.fst →
        (list.map fun part => if part.1 = key then (part.1, plus part.2 value) else part) = list := by
      intro value list hlist
      refine (List.map_congr_left fun part hpart => if_neg ?_).trans (List.map_id _)
      rintro rfl
      exact hlist (List.mem_map_of_mem hpart)
    unfold settle
    simp only [hsum, hminus]
    rw [List.map_append, List.map_cons, if_pos rfl, hplus, hkeep _ _ hafter, hkeep]
    intro hmem
    exact hbefore key hmem key (List.mem_cons_self ..) rfl
  have hfinal : ((before ++ (key, amount - others.sum) :: after).map Prod.snd).Perm
      ((amount - others.sum) :: others) := by
    rw [List.map_append, List.map_cons]
    exact List.perm_middle
  rw [hsettle]
  constructor
  · simp
  · intro a ha
    rcases List.mem_cons.mp (hfinal.mem_iff.mp ha) with rfl | ha
    · exact hkept.sub hgridOthers
    · exact hparts a (hsub a ha)
  · rw [hfinal.sum_eq, List.sum_cons]
    ring
  · rw [size_perm hfinal, size_cons]
    linarith

/-! ## Shares of an amount -/

/-- How far a share is moved, as a part of it: twice half of the last of 28 digits. -/
def drift : ℚ := 11 / 10 ^ 28

/-- A share is moved by little, and stays on the amount's side. -/
theorem ratio_spec (amount : ℚ) (w whole : ℕ) :
    |dividedBy (times amount w) whole| ≤ |amount| * (w / whole) * (1 + drift) ∧
      (0 ≤ amount → 0 ≤ dividedBy (times amount w) whole) ∧
      (amount ≤ 0 → dividedBy (times amount w) whole ≤ 0) := by
  have hw : (0 : ℚ) ≤ w := Nat.cast_nonneg w
  have hwhole : (0 : ℚ) ≤ whole := Nat.cast_nonneg whole
  refine ⟨?_, ?_, ?_⟩
  · have hgrow : ∀ x : ℚ, |inContext precision x| ≤ |x| * (1 + 5 / 10 ^ 28) := by
      intro x
      have hmove := abs_inContext_sub_le precision x
      have hsum := abs_add_le (inContext precision x - x) x
      rw [sub_add_cancel] at hsum
      have hhalf : ((10 : ℚ) ^ (1 - (precision : ℤ)) / 2) = 5 / 10 ^ 28 := by
        norm_num [precision, zpow_neg]
      rw [hhalf] at hmove
      linarith
    have htimes := hgrow (amount * w)
    have hdivided := hgrow (times amount w / whole)
    rw [abs_div, abs_of_nonneg hwhole] at hdivided
    rw [abs_mul, abs_of_nonneg hw] at htimes
    calc |dividedBy (times amount w) whole|
        ≤ |times amount w| / whole * (1 + 5 / 10 ^ 28) := hdivided
      _ ≤ |amount| * w * (1 + 5 / 10 ^ 28) / whole * (1 + 5 / 10 ^ 28) := by
          gcongr
          exact htimes
      _ = |amount| * (w / whole) * ((1 + 5 / 10 ^ 28) * (1 + 5 / 10 ^ 28)) := by ring
      _ ≤ |amount| * (w / whole) * (1 + drift) := by
          gcongr
          norm_num [drift]
  · intro hpos
    exact inContext_nonneg (div_nonneg (inContext_nonneg (mul_nonneg hpos hw)) hwhole)
  · intro hneg
    exact inContext_nonpos (div_nonpos_of_nonpos_of_nonneg
      (inContext_nonpos (mul_nonpos_of_nonpos_of_nonneg hneg hw)) hwhole)

/-- The weights' shares of one make up one. -/
theorem sum_shares {weights : List (String × ℕ)} (hwhole : (weights.map Prod.snd).sum ≠ 0) :
    (weights.map fun w => (w.2 : ℚ) / (weights.map Prod.snd).sum).sum = 1 := by
  have hsum : ∀ (l : List (String × ℕ)) (whole : ℚ),
      (l.map fun w => (w.2 : ℚ) / whole).sum = ((l.map Prod.snd).sum : ℕ) / whole := by
    intro l whole
    induction l with
    | nil => simp
    | cons w rest ih =>
      rw [List.map_cons, List.sum_cons, ih, List.map_cons, List.sum_cons, Nat.cast_add, add_div]
  rw [hsum]
  exact div_self (by exact_mod_cast hwhole)

/-- A rounding mode that keeps the sign, and adds `slack` units at most. -/
structure Mode (mode : ℚ → ℤ) (slack : ℚ) : Prop where
  nonneg : ∀ {x}, 0 ≤ x → 0 ≤ mode x
  nonpos : ∀ {x}, x ≤ 0 → mode x ≤ 0
  abs_le : ∀ x, |(mode x : ℚ)| ≤ |x| + slack
  slack_nonneg : 0 ≤ slack

theorem mode_halfEven : Mode halfEven (1 / 2) :=
  ⟨halfEven_nonneg, halfEven_nonpos, abs_halfEven_le, by norm_num⟩

theorem mode_down : Mode down 0 :=
  ⟨down_nonneg, down_nonpos, fun x => by rw [add_zero]; exact abs_down_le x, le_rfl⟩

section Apportion

variable {mode : ℚ → ℤ} {slack amount : ℚ} {weights : List (String × ℕ)}

/-- One unit, `10 ^ -12` dollars. -/
def unit : ℚ := 1 / 10 ^ 12

/-- What the rounded shares may exceed the amount by. -/
def excessOf (slack amount : ℚ) (n : ℕ) : ℚ := |amount| * drift + n * (slack * unit)

/-- An amount a cent below `10 ^ 16` dollars leaves room for what the rounding of shares adds. -/
def limit : ℚ := 10 ^ 16 - 1 / 100

theorem excessOf_nonneg (hslack : 0 ≤ slack) (amount : ℚ) (n : ℕ) : 0 ≤ excessOf slack amount n := by
  unfold excessOf drift unit
  positivity

/-- What one rounded share is. -/
private structure PartOf (slack amount : ℚ) (whole : ℕ) (w : String × ℕ) (part : String × ℚ) :
    Prop where
  key : part.1 = w.1
  kept : Kept part.2
  nonneg : 0 ≤ amount → 0 ≤ part.2
  nonpos : amount ≤ 0 → part.2 ≤ 0
  abs_le : |part.2| ≤ |amount| * (w.2 / whole) * (1 + drift) + slack * unit

/-- One rounded share. -/
private theorem partOf_ok (hmode : Mode mode slack) {w : String × ℕ} (hw : w ∈ weights)
    (hwhole : (weights.map Prod.snd).sum ≠ 0)
    (hlimit : |amount| + excessOf slack amount weights.length < 10 ^ 16) :
    ∃ part, partOf mode amount (weights.map Prod.snd).sum w = .ok part ∧
      PartOf slack amount (weights.map Prod.snd).sum w part := by
  set whole := (weights.map Prod.snd).sum
  obtain ⟨hratio, hpos, hneg⟩ := ratio_spec amount w.2 whole
  set ratio := dividedBy (times amount w.2) whole
  have hscale : (0 : ℚ) < 10 ^ places := by positivity
  have hround : |(mode (ratio * 10 ^ places) : ℚ)| ≤ |ratio| * 10 ^ places + slack := by
    have h := hmode.abs_le (ratio * 10 ^ places)
    rwa [abs_mul, abs_of_pos hscale] at h
  have hpart : |(mode (ratio * 10 ^ places) : ℚ) / 10 ^ places| ≤
      |amount| * (w.2 / whole) * (1 + drift) + slack * unit := by
    rw [abs_div, abs_of_pos hscale, div_le_iff₀ hscale]
    refine hround.trans ?_
    have hunit : slack * unit * 10 ^ places = slack := by
      unfold unit places
      field_simp
    rw [add_mul, hunit]
    gcongr
  have hfits : |(mode (ratio * 10 ^ places) : ℚ)| < 10 ^ precision := by
    -- A share of the amount is no more than the amount.
    have hone : (w.2 : ℚ) / whole ≤ 1 := by
      have hle : w.2 ≤ whole := List.single_le_sum (fun _ _ => Nat.zero_le _) _
        (List.mem_map_of_mem hw)
      have hpositive : (0 : ℚ) < whole := by exact_mod_cast Nat.pos_of_ne_zero hwhole
      rw [div_le_one hpositive]
      exact_mod_cast hle
    have hlength : (1 : ℚ) ≤ weights.length := by
      exact_mod_cast List.length_pos_of_mem hw
    have hbound : |(mode (ratio * 10 ^ places) : ℚ) / 10 ^ places| < 10 ^ 16 := by
      refine lt_of_le_of_lt (hpart.trans ?_) hlimit
      have hdrift : (0 : ℚ) ≤ drift := by norm_num [drift]
      have hslack : 0 ≤ slack * unit := mul_nonneg hmode.slack_nonneg (by norm_num [unit])
      have hshare : |amount| * ((w.2 : ℚ) / whole) * (1 + drift) ≤ |amount| * 1 * (1 + drift) := by
        gcongr
      unfold excessOf
      nlinarith
    rw [abs_div, abs_of_pos hscale, div_lt_iff₀ hscale] at hbound
    refine hbound.trans_eq ?_
    norm_num [places, precision]
  refine ⟨(w.1, _), bind_eq_ok.mpr ⟨(), raiseIf_eq_ok.mpr hwhole,
    bind_eq_ok.mpr ⟨_, quantize_ok hfits, rfl⟩⟩, rfl, ⟨_, rfl⟩, ?_, ?_, hpart⟩
  · intro h
    have hmodePos := hmode.nonneg (mul_nonneg (hpos h) hscale.le)
    exact div_nonneg (by exact_mod_cast hmodePos) hscale.le
  · intro h
    have hmodeNeg := hmode.nonpos (mul_nonpos_of_nonpos_of_nonneg (hneg h) hscale.le)
    exact div_nonpos_of_nonpos_of_nonneg (by exact_mod_cast hmodeNeg) hscale.le

/-- The rounded shares exceed the amount by little. -/
private theorem size_parts_le {whole : ℕ} {parts : List (String × ℚ)}
    (h : List.Forall₂ (PartOf slack amount whole) weights parts) :
    size (parts.map Prod.snd) ≤
      |amount| * (weights.map fun w => (w.2 : ℚ) / whole).sum * (1 + drift) +
        weights.length * (slack * unit) := by
  induction h with
  | nil => simp
  | cons hpart _ ih =>
    have hle := hpart.abs_le
    rw [List.map_cons, size_cons, List.map_cons, List.sum_cons, List.length_cons]
    push_cast
    linarith

/-- **Shares settle the amount**, if it and what rounding adds stay below `10 ^ 16` dollars. -/
theorem apportion_settled (hmode : Mode mode slack) (hnodup : (weights.map Prod.fst).Nodup)
    (hwhole : (weights.map Prod.snd).sum ≠ 0) (hkept : Kept amount)
    (hlimit : |amount| + excessOf slack amount weights.length < 10 ^ 16) :
    ∃ parts, apportion mode amount weights = .ok parts ∧
      Settled amount (2 * excessOf slack amount weights.length) (weights.map Prod.fst) parts := by
  obtain ⟨key, hkey⟩ : ∃ key, largest weights = some key := by
    apply Option.ne_none_iff_exists'.mp
    rw [ne_eq, largest_eq_none]
    rintro rfl
    exact hwhole rfl
  obtain ⟨parts, hparts⟩ := exists_mapM_eq_ok (l := weights)
    (f := partOf mode amount (weights.map Prod.snd).sum) fun w hw =>
      (partOf_ok hmode hw hwhole hlimit).imp fun _ => And.left
  have hof : ∀ w ∈ weights, ∀ part, partOf mode amount (weights.map Prod.snd).sum w = .ok part →
      PartOf slack amount (weights.map Prod.snd).sum w part := by
    intro w hw part hpart
    obtain ⟨part', hpart', hspec⟩ := partOf_ok hmode hw hwhole hlimit
    obtain rfl := Except.ok.inj (hpart.symm.trans hpart')
    exact hspec
  have hkeys : parts.map Prod.fst = weights.map Prod.fst := by
    refine map_eq_of_mapM_eq_ok Prod.fst Prod.fst hparts fun w part hpart => ?_
    obtain ⟨_, -, hquantized⟩ := bind_eq_ok.mp hpart
    obtain ⟨_, -, hpure⟩ := bind_eq_ok.mp hquantized
    rw [← pure_eq_ok.mp hpure]
  have heach : ∀ a ∈ parts.map Prod.snd, ∃ w part, PartOf slack amount (weights.map Prod.snd).sum w
      part ∧ part.2 = a := by
    intro a ha
    obtain ⟨part, hpart, rfl⟩ := List.mem_map.mp ha
    obtain ⟨w, hw, hvalue⟩ := exists_preimage_of_mem hparts hpart
    exact ⟨w, part, hof w hw part hvalue, rfl⟩
  have hsize := size_parts_le (forall₂_of_mapM hparts hof)
  rw [sum_shares hwhole, mul_one] at hsize
  refine ⟨settle amount key (dictOf parts), ?_, ?_⟩
  · simp only [apportion, hparts, hkey]
    rfl
  · rw [dictOf_of_nodup (hkeys ▸ hnodup), ← hkeys]
    apply settled_settle (hkeys ▸ hnodup) (hkeys ▸ largest_mem hkey) hkept
    · intro a ha
      obtain ⟨w, part, hspec, rfl⟩ := heach a ha
      exact hspec.kept
    · rcases le_total 0 amount with hpos | hneg
      · refine Or.inl ⟨hpos, fun a ha => ?_⟩
        obtain ⟨w, part, hspec, rfl⟩ := heach a ha
        exact hspec.nonneg hpos
      · refine Or.inr ⟨hneg, fun a ha => ?_⟩
        obtain ⟨w, part, hspec, rfl⟩ := heach a ha
        exact hspec.nonpos hneg
    · refine hsize.trans_eq ?_
      unfold excessOf
      ring
    · exact excessOf_nonneg hmode.slack_nonneg _ _
    · exact hlimit

end Apportion

end PlatformOps.Cost
