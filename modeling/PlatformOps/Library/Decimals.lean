import Mathlib

/-!
# Decimal Arithmetic of a Fixed Precision

Decimal numbers in a context of `p` significant digits: what an operation returns
is its exact result, rounded to the nearest number of `p` digits, a tie to the even
one. A number is its value here, a rational; how its zeros are written does not
change what any operation returns.

- `inContext`: an exact result, rounded to the context.
- `abs_inContext_sub_le`: how far it is moved.
- `inContext_eq_self`: a number on the grid of `10 ^ -k` with at most `p` digits is
  not moved.
- `quantize`: onto the grid of `10 ^ -k`, or an error when `p` digits do not suffice.
- `total_eq_sum`: a sum whose terms are on a grid and small enough is exact.
-/

namespace Decimals

/-! ## Rounding to an integer -/

/-- `ROUND_HALF_EVEN`: the nearest integer, a tie to the even one. -/
def halfEven (x : ℚ) : ℤ :=
  if x - ⌊x⌋ < 1 / 2 then ⌊x⌋
  else if 1 / 2 < x - ⌊x⌋ then ⌊x⌋ + 1
  else if ⌊x⌋ % 2 = 0 then ⌊x⌋ else ⌊x⌋ + 1

/-- `ROUND_DOWN`: towards zero. -/
def down (x : ℚ) : ℤ :=
  if 0 ≤ x then ⌊x⌋ else ⌈x⌉

/-- `ROUND_HALF_UP`: the nearest integer, a tie away from zero. -/
def halfUp (x : ℚ) : ℤ :=
  if 0 ≤ x then ⌊x + 1 / 2⌋ else ⌈x - 1 / 2⌉

theorem abs_halfEven_sub_le (x : ℚ) : |(halfEven x : ℚ) - x| ≤ 1 / 2 := by
  have hlow := Int.floor_le x
  have hhigh := Int.lt_floor_add_one x
  unfold halfEven
  rw [abs_le]
  split
  · constructor <;> linarith
  · rename_i hnot
    split
    · push_cast
      constructor <;> linarith
    · split
      · constructor <;> linarith
      · push_cast
        constructor <;> linarith

@[simp] theorem halfEven_intCast (n : ℤ) : halfEven n = n := by
  unfold halfEven
  rw [Int.floor_intCast, sub_self, if_pos (by norm_num)]

theorem halfEven_neg (x : ℚ) : halfEven (-x) = -halfEven x := by
  rcases eq_or_ne (Int.fract x) 0 with hint | hfract
  · have hx : x = (⌊x⌋ : ℤ) := by
      rw [← Int.self_sub_floor, sub_eq_zero] at hint
      exact hint
    have hneg : -x = ((-⌊x⌋ : ℤ) : ℚ) := by
      rw [Int.cast_neg, ← hx]
    rw [hneg, halfEven_intCast, hx, halfEven_intCast, Int.floor_intCast]
  · -- Between two integers, the distances to them are exchanged.
    have hfloor : ⌊-x⌋ = -⌊x⌋ - 1 := by
      have hpos : 0 < Int.fract x := lt_of_le_of_ne (Int.fract_nonneg x) (Ne.symm hfract)
      have hlt := Int.fract_lt_one x
      have hsum := Int.fract_add_floor x
      rw [Int.floor_eq_iff]
      push_cast
      constructor <;> linarith
    have hdistance : -x - ⌊-x⌋ = 1 - (x - ⌊x⌋) := by
      rw [hfloor]
      push_cast
      ring
    unfold halfEven
    rw [hdistance, hfloor]
    rcases lt_trichotomy (x - ⌊x⌋) (1 / 2) with hlt | htie | hgt
    · rw [if_neg (by linarith), if_pos (by linarith), if_pos hlt]
      ring
    · have hhalf : (1 : ℚ) - 1 / 2 = 1 / 2 := by norm_num
      simp only [htie, hhalf, lt_irrefl, if_false]
      split <;> split <;> omega
    · rw [if_pos (by linarith), if_neg (by linarith), if_pos hgt]
      ring

/-- Rounding does not fall below an integer that a number has reached. -/
theorem le_halfEven {n : ℤ} {x : ℚ} (h : (n : ℚ) ≤ x) : n ≤ halfEven x := by
  have hmove := (abs_le.mp (abs_halfEven_sub_le x)).1
  have hlt : ((n - 1 : ℤ) : ℚ) < halfEven x := by
    push_cast
    linarith
  rw [Int.cast_lt] at hlt
  omega

/-- Two numbers that are rounded the other way round would both be half way between. -/
theorem halfEven_mono : Monotone halfEven := by
  intro x y h
  by_contra hlt
  have hx := (abs_le.mp (abs_halfEven_sub_le x)).2
  have hy := (abs_le.mp (abs_halfEven_sub_le y)).1
  have hstep : (halfEven y : ℚ) + 1 ≤ halfEven x := by
    exact_mod_cast not_le.mp hlt
  have heq : x = y := by linarith
  rw [heq] at hlt
  exact hlt le_rfl

theorem halfEven_nonneg {x : ℚ} (h : 0 ≤ x) : 0 ≤ halfEven x := by
  have hfloor := Int.floor_nonneg.mpr h
  unfold halfEven
  split
  · exact hfloor
  · split
    · omega
    · split <;> omega

theorem halfEven_nonpos {x : ℚ} (h : x ≤ 0) : halfEven x ≤ 0 := by
  have hmove := (abs_le.mp (abs_halfEven_sub_le x)).2
  have hlt : (halfEven x : ℚ) < 1 := by linarith
  have hlt' : halfEven x < 1 := by exact_mod_cast hlt
  omega

theorem abs_halfEven (x : ℚ) : |halfEven x| = halfEven |x| := by
  rcases le_total 0 x with h | h
  · rw [abs_of_nonneg h, abs_of_nonneg (halfEven_nonneg h)]
  · rw [abs_of_nonpos h, halfEven_neg, abs_of_nonpos (halfEven_nonpos h)]

theorem abs_halfEven_le (x : ℚ) : |(halfEven x : ℚ)| ≤ |x| + 1 / 2 := by
  have hmove := abs_halfEven_sub_le x
  have hsum := abs_add_le ((halfEven x : ℚ) - x) x
  rw [sub_add_cancel] at hsum
  linarith

theorem abs_down_le (x : ℚ) : |(down x : ℚ)| ≤ |x| := by
  unfold down
  split
  · rename_i h
    have hfloor : (0 : ℚ) ≤ ⌊x⌋ := by exact_mod_cast Int.floor_nonneg.mpr h
    rw [abs_of_nonneg h, abs_of_nonneg hfloor]
    exact Int.floor_le x
  · rename_i h
    rw [not_le] at h
    have hceil : (⌈x⌉ : ℚ) ≤ 0 := by exact_mod_cast Int.ceil_nonpos.mpr h.le
    rw [abs_of_neg h, abs_of_nonpos hceil]
    linarith [Int.le_ceil x]

theorem down_nonneg {x : ℚ} (h : 0 ≤ x) : 0 ≤ down x := by
  unfold down
  rw [if_pos h]
  exact Int.floor_nonneg.mpr h

theorem down_nonpos {x : ℚ} (h : x ≤ 0) : down x ≤ 0 := by
  unfold down
  split
  · rename_i hpos
    have hzero : x = 0 := le_antisymm h hpos
    simp [hzero]
  · exact Int.ceil_nonpos.mpr h

/-! ## Halves away from zero -/

theorem down_neg (x : ℚ) : down (-x) = -down x := by
  unfold down
  rcases lt_trichotomy x 0 with h | rfl | h
  · rw [if_pos (by linarith), if_neg (by linarith), Int.floor_neg]
  · simp
  · rw [if_neg (by linarith), if_pos h.le, Int.ceil_neg]

theorem halfUp_neg (x : ℚ) : halfUp (-x) = -halfUp x := by
  unfold halfUp
  rcases lt_trichotomy x 0 with h | rfl | h
  · rw [if_pos (by linarith), if_neg (by linarith), ← Int.floor_neg]
    congr 1
    ring
  · norm_num
  · rw [if_neg (by linarith), if_pos h.le, ← Int.ceil_neg]
    congr 1
    ring

theorem down_of_nonneg {x : ℚ} (h : 0 ≤ x) : down x = ⌊x⌋ :=
  if_pos h

theorem halfUp_of_nonneg {x : ℚ} (h : 0 ≤ x) : halfUp x = ⌊x + 1 / 2⌋ :=
  if_pos h

@[simp] theorem down_intCast (n : ℤ) : down n = n := by
  unfold down
  split <;> simp

@[simp] theorem halfUp_intCast (n : ℤ) : halfUp n = n := by
  have hnonneg : ∀ n : ℤ, 0 ≤ n → halfUp n = n := by
    intro n hn
    rw [halfUp_of_nonneg (by exact_mod_cast hn), Int.floor_intCast_add]
    norm_num
  rcases le_total 0 n with h | h
  · exact hnonneg n h
  · have hneg := hnonneg (-n) (by omega)
    rw [Int.cast_neg, halfUp_neg] at hneg
    omega

/-- A statement about every number, from the ones that are not negative. -/
private theorem of_nonneg {motive : ℚ → Prop} (h : ∀ x, 0 ≤ x → motive x)
    (hneg : ∀ x, motive x → motive (-x)) (x : ℚ) : motive x := by
  rcases le_total 0 x with hx | hx
  · exact h x hx
  · simpa using hneg (-x) (h (-x) (by linarith))

/-- Rounding and truncating differ from one half on. -/
theorem halfUp_eq_down_iff (x : ℚ) : halfUp x = down x ↔ Int.fract |x| < 1 / 2 := by
  refine of_nonneg (motive := fun x => halfUp x = down x ↔ Int.fract |x| < 1 / 2) ?_ ?_ x
  · intro x hx
    rw [halfUp_of_nonneg hx, down_of_nonneg hx, abs_of_nonneg hx, Int.floor_eq_iff]
    -- At least half of a unit past the floor, halves round up to the next integer.
    have hfract := Int.fract_add_floor x
    have hnonneg := Int.fract_nonneg x
    constructor
    · rintro ⟨-, hlt⟩
      linarith
    · intro hlt
      constructor <;> linarith
  · intro x h
    rw [halfUp_neg, down_neg, abs_neg, neg_inj]
    exact h

/-- The integers next to a number that is rounded up are its truncation and its rounding. -/
theorem abs_sub_lt_one_iff {x : ℚ} {n : ℤ} (h : 1 / 2 ≤ Int.fract |x|) :
    |n - x| < 1 ↔ n = down x ∨ n = halfUp x := by
  revert n h
  refine of_nonneg (motive := fun x => ∀ {n : ℤ}, 1 / 2 ≤ Int.fract |x| →
    (|n - x| < 1 ↔ n = down x ∨ n = halfUp x)) ?_ ?_ x
  · intro x hx n h
    rw [abs_of_nonneg hx] at h
    have hfract := Int.fract_add_floor x
    have hlt := Int.fract_lt_one x
    have hup : halfUp x = ⌊x⌋ + 1 := by
      rw [halfUp_of_nonneg hx, Int.floor_eq_iff]
      push_cast
      constructor <;> linarith
    rw [down_of_nonneg hx, hup, abs_lt]
    constructor
    · rintro ⟨hlow, hhigh⟩
      have hlow' : ((⌊x⌋ - 1 : ℤ) : ℚ) < n := by
        push_cast
        linarith
      have hhigh' : (n : ℚ) < ((⌊x⌋ + 2 : ℤ) : ℚ) := by
        push_cast
        linarith
      rw [Int.cast_lt] at hlow' hhigh'
      omega
    · rintro (rfl | rfl)
      · constructor <;> linarith
      · push_cast
        constructor <;> linarith
  · intro x hx n h
    rw [abs_neg] at h
    have hneg := hx (n := -n) h
    rw [down_neg, halfUp_neg, ← abs_neg]
    push_cast at hneg ⊢
    rw [show -((n : ℚ) - -x) = -n - x by ring, hneg, neg_eq_iff_eq_neg, neg_eq_iff_eq_neg]

/-- A bound on a rounded number. -/
theorem abs_halfUp_lt_iff {x : ℚ} {n : ℤ} : |halfUp x| < n ↔ |x| + 1 / 2 < n := by
  refine of_nonneg (motive := fun x => |halfUp x| < n ↔ |x| + 1 / 2 < n) ?_ ?_ x
  · intro x hx
    have hround : 0 ≤ ⌊x + 1 / 2⌋ := Int.floor_nonneg.mpr (by linarith)
    rw [halfUp_of_nonneg hx, abs_of_nonneg hx, abs_of_nonneg hround, Int.floor_lt]
  · intro x h
    rw [halfUp_neg, abs_neg, abs_neg]
    exact h

/-- **Digits that were cut below the tenths do not change how a number is rounded.** -/
theorem halfUp_down {e : ℕ} (he : e ≠ 0) (x : ℚ) :
    halfUp (down (x * 10 ^ e) / 10 ^ e) = halfUp x := by
  refine of_nonneg (motive := fun x => halfUp (down (x * 10 ^ e) / 10 ^ e) = halfUp x) ?_ ?_ x
  · intro x hx
    have hunit : (0 : ℚ) < 10 ^ e := by positivity
    -- One half is a whole number of the digits that are kept.
    obtain ⟨half, hhalf⟩ : ∃ half : ℤ, (10 : ℚ) ^ e / 2 = half := by
      obtain ⟨d, rfl⟩ := Nat.exists_eq_succ_of_ne_zero he
      refine ⟨5 * 10 ^ d, ?_⟩
      rw [Nat.succ_eq_add_one, pow_succ]
      push_cast
      ring
    have hround : ∀ y : ℚ, 0 ≤ y → halfUp (y / 10 ^ e) = (⌊y⌋ + half) / ((10 ^ e : ℕ) : ℤ) := by
      intro y hy
      rw [halfUp_of_nonneg (div_nonneg hy hunit.le), ← Int.floor_add_intCast,
        ← Int.floor_div_natCast]
      congr 1
      rw [← hhalf]
      push_cast
      field_simp
    have hscaled : 0 ≤ x * 10 ^ e := mul_nonneg hx hunit.le
    have hkept : (0 : ℚ) ≤ ⌊x * 10 ^ e⌋ := by exact_mod_cast Int.floor_nonneg.mpr hscaled
    have hx' : x = x * 10 ^ e / 10 ^ e := (mul_div_cancel_right₀ x hunit.ne').symm
    rw [down_of_nonneg hscaled, hround _ hkept, Int.floor_intCast, ← hround _ hscaled, ← hx']
  · intro x h
    rw [neg_mul, down_neg, Int.cast_neg, neg_div, halfUp_neg, h, halfUp_neg]

/-! ## Fractions -/

/-- Whether the integer nearest to a fraction is above it, a tie going to the even one. -/
def RoundsUp (n d : ℕ) : Prop := d < 2 * (n % d) ∨ 2 * (n % d) = d ∧ n / d % 2 = 1

instance (n d : ℕ) : Decidable (RoundsUp n d) := inferInstanceAs (Decidable (_ ∨ _))

/-- The integer nearest to a fraction, a tie going to the even one. -/
def nearest (n d : ℕ) : ℕ := n / d + if RoundsUp n d then 1 else 0

/-- The quotient and the remainder decide how a fraction is rounded. -/
theorem halfEven_div (n : ℕ) {d : ℕ} (hd : 0 < d) : halfEven ((n : ℚ) / d) = nearest n d := by
  have hd' : (0 : ℚ) < d := by exact_mod_cast hd
  have hfloor : ⌊(n : ℚ) / d⌋ = (n / d : ℕ) := by
    rw [Rat.floor_natCast_div_natCast]
    norm_cast
  have hfract : (n : ℚ) / d - ((n / d : ℕ) : ℤ) = (n % d : ℕ) / d := by
    have hsplit : (n : ℚ) = d * (n / d : ℕ) + (n % d : ℕ) := by exact_mod_cast (Nat.div_add_mod n d).symm
    rw [Int.cast_natCast, eq_div_iff hd'.ne', sub_mul, div_mul_cancel₀ _ hd'.ne']
    linarith
  have hlow : (n % d : ℕ) / (d : ℚ) < 1 / 2 ↔ 2 * (n % d) < d := by
    rw [div_lt_div_iff₀ hd' two_pos]
    constructor
    · intro h
      have h' : ((n % d * 2 : ℕ) : ℚ) < (1 * d : ℕ) := by exact_mod_cast h
      rw [Nat.cast_lt] at h'
      omega
    · intro h
      have h' : n % d * 2 < 1 * d := by omega
      exact_mod_cast h'
  have hhigh : 1 / 2 < (n % d : ℕ) / (d : ℚ) ↔ d < 2 * (n % d) := by
    rw [div_lt_div_iff₀ two_pos hd']
    constructor
    · intro h
      have h' : ((1 * d : ℕ) : ℚ) < (n % d * 2 : ℕ) := by exact_mod_cast h
      rw [Nat.cast_lt] at h'
      omega
    · intro h
      have h' : 1 * d < n % d * 2 := by omega
      exact_mod_cast h'
  unfold halfEven nearest
  rw [hfloor, hfract]
  simp only [hlow, hhigh]
  by_cases hup : RoundsUp n d
  · rw [if_pos hup]
    unfold RoundsUp at hup
    split_ifs <;> omega
  · rw [if_neg hup]
    unfold RoundsUp at hup
    split_ifs <;> omega

/-- Rounding modes that, between two neighbouring halves, round all numbers to the same integer. -/
def BetweenHalves (mode : ℚ → ℤ) : Prop :=
  ∀ {x y : ℚ}, 0 ≤ x → 0 ≤ y → ⌊2 * x⌋ = ⌊2 * y⌋ → 2 * x ≠ ⌊2 * x⌋ → 2 * y ≠ ⌊2 * y⌋ → mode x = mode y

theorem betweenHalves_down : BetweenHalves down := by
  intro x y hx hy hfloor _ _
  have hhalf : ∀ z : ℚ, ⌊z⌋ = ⌊2 * z⌋ / 2 := by
    intro z
    have hdiv := Int.floor_div_natCast (2 * z) 2
    push_cast at hdiv
    rw [← hdiv]
    congr 1
    ring
  rw [down_of_nonneg hx, down_of_nonneg hy, hhalf x, hhalf y, hfloor]

theorem betweenHalves_halfEven : BetweenHalves halfEven := by
  -- Off the halves the nearest integer is the floor of what is one half more.
  have hround : ∀ z : ℚ, 2 * z ≠ ⌊2 * z⌋ → halfEven z = (⌊2 * z⌋ + 1) / 2 := by
    intro z hz
    have hshift : (⌊2 * z⌋ + 1) / 2 = ⌊z + 1 / 2⌋ := by
      have hdiv := Int.floor_div_natCast (2 * z + 1) 2
      rw [Int.floor_add_one] at hdiv
      push_cast at hdiv
      rw [← hdiv]
      congr 1
      ring
    rw [hshift]
    have hlow := Int.floor_le z
    have hhigh := Int.lt_floor_add_one z
    unfold halfEven
    symm
    split_ifs with h1 h2 h3
    · rw [Int.floor_eq_iff]
      constructor <;> linarith
    · rw [Int.floor_eq_iff]
      push_cast
      constructor <;> linarith
    all_goals
      exfalso
      have htie : 2 * z = (2 * ⌊z⌋ + 1 : ℤ) := by
        push_cast
        linarith
      apply hz
      rw [htie, Int.floor_intCast]
  intro x y _ _ hfloor hx hy
  rw [hround x hx, hround y hy, hfloor]

/-! ## The context -/

/-- The exponent of the last digit of a number written with `p` digits. -/
def lastDigit (p : ℕ) (x : ℚ) : ℤ :=
  Int.log 10 |x| + 1 - p

/-- A result in a context of `p` digits. -/
def inContext (p : ℕ) (x : ℚ) : ℚ :=
  halfEven (x / 10 ^ lastDigit p x) * 10 ^ lastDigit p x

variable {p k : ℕ} {x : ℚ}

/-- What is moved is half of the last digit at most. -/
theorem abs_inContext_sub_le (p : ℕ) (x : ℚ) :
    |inContext p x - x| ≤ |x| * (10 ^ (1 - (p : ℤ)) / 2) := by
  rcases eq_or_ne x 0 with rfl | hx
  · have hzero : inContext p 0 = 0 := by
      have h := halfEven_intCast 0
      simp only [Int.cast_zero] at h
      simp [inContext, h]
    simp [hzero]
  · have hunit : (0 : ℚ) < 10 ^ lastDigit p x := zpow_pos (by norm_num) _
    have hmove := abs_halfEven_sub_le (x / 10 ^ lastDigit p x)
    have hscale : inContext p x - x =
        ((halfEven (x / 10 ^ lastDigit p x) : ℚ) - x / 10 ^ lastDigit p x) * 10 ^ lastDigit p x := by
      rw [sub_mul, div_mul_cancel₀ _ hunit.ne']
      rfl
    -- The leading digit is worth no more than the number.
    have hlog : (10 : ℚ) ^ Int.log 10 |x| ≤ |x| :=
      Int.zpow_log_le_self (by norm_num) (abs_pos.mpr hx)
    have hdigit : (10 : ℚ) ^ lastDigit p x = 10 ^ Int.log 10 |x| * 10 ^ (1 - (p : ℤ)) := by
      rw [lastDigit, ← zpow_add₀ (by norm_num)]
      congr 1
      ring
    have htail : (0 : ℚ) < 10 ^ (1 - (p : ℤ)) := zpow_pos (by norm_num) _
    calc |inContext p x - x|
        = |(halfEven (x / 10 ^ lastDigit p x) : ℚ) - x / 10 ^ lastDigit p x| *
            10 ^ lastDigit p x := by rw [hscale, abs_mul, abs_of_pos hunit]
      _ ≤ 1 / 2 * 10 ^ lastDigit p x := mul_le_mul_of_nonneg_right hmove hunit.le
      _ = 10 ^ Int.log 10 |x| * (10 ^ (1 - (p : ℤ)) / 2) := by rw [hdigit]; ring
      _ ≤ |x| * (10 ^ (1 - (p : ℤ)) / 2) := mul_le_mul_of_nonneg_right hlog (by positivity)

/-- The sign is kept. -/
theorem inContext_nonneg (h : 0 ≤ x) : 0 ≤ inContext p x := by
  have hunit : (0 : ℚ) < 10 ^ lastDigit p x := zpow_pos (by norm_num) _
  have hround : (0 : ℚ) ≤ halfEven (x / 10 ^ lastDigit p x) := by
    exact_mod_cast halfEven_nonneg (div_nonneg h hunit.le)
  exact mul_nonneg hround hunit.le

theorem inContext_nonpos (h : x ≤ 0) : inContext p x ≤ 0 := by
  have hunit : (0 : ℚ) < 10 ^ lastDigit p x := zpow_pos (by norm_num) _
  have hround : (halfEven (x / 10 ^ lastDigit p x) : ℚ) ≤ 0 := by
    exact_mod_cast halfEven_nonpos (div_nonpos_of_nonpos_of_nonneg h hunit.le)
  exact mul_nonpos_of_nonpos_of_nonneg hround hunit.le

theorem inContext_neg (p : ℕ) (x : ℚ) : inContext p (-x) = -inContext p x := by
  rw [inContext, inContext, lastDigit, lastDigit, abs_neg, neg_div, halfEven_neg]
  push_cast
  ring

/-- A number with more than `p` digits on a grid keeps them. -/
theorem le_abs_inContext_mul (hp : p ≠ 0) (h : 10 ^ p ≤ |x| * 10 ^ k) :
    10 ^ p ≤ |inContext p x| * 10 ^ k := by
  have hk : (0 : ℚ) < 10 ^ k := by positivity
  have hx : 0 < |x| := by
    by_contra hzero
    rw [le_antisymm (not_lt.mp hzero) (abs_nonneg x), zero_mul] at h
    exact absurd h (not_le.mpr (by positivity))
  set e := lastDigit p x with he
  have hunit : (0 : ℚ) < 10 ^ e := zpow_pos (by norm_num) _
  -- The last digit is above the grid, and the number has `p` of them.
  have hdigit : 1 ≤ e + k := by
    have hlog : (p : ℤ) - k ≤ Int.log 10 |x| := by
      rw [← Int.zpow_le_iff_le_log (by norm_num) hx]
      push_cast
      rw [zpow_sub₀ (by norm_num), zpow_natCast, zpow_natCast, div_le_iff₀ hk]
      exact h
    rw [he, lastDigit]
    omega
  have hlead : (10 : ℚ) ^ (p - 1) ≤ |x| / 10 ^ e := by
    rw [le_div_iff₀ hunit, ← zpow_natCast, ← zpow_add₀ (by norm_num)]
    have hlog : (10 : ℚ) ^ Int.log 10 |x| ≤ |x| := Int.zpow_log_le_self (by norm_num) hx
    have hexp : ((p - 1 : ℕ) : ℤ) + e = Int.log 10 |x| := by
      rw [he, lastDigit]
      omega
    rw [hexp]
    exact hlog
  have hround : (10 : ℚ) ^ (p - 1) ≤ |(halfEven (x / 10 ^ e) : ℚ)| := by
    have hle : ((10 : ℤ) ^ (p - 1)) ≤ |halfEven (x / 10 ^ e)| := by
      rw [abs_halfEven, abs_div, abs_of_pos hunit]
      apply le_halfEven
      push_cast
      exact hlead
    exact_mod_cast hle
  calc (10 : ℚ) ^ p = 10 ^ (p - 1) * 10 := by
        rw [← pow_succ, Nat.sub_add_cancel (Nat.one_le_iff_ne_zero.mpr hp)]
    _ ≤ |(halfEven (x / 10 ^ e) : ℚ)| * 10 ^ (e + k) := by
        apply mul_le_mul hround _ (by norm_num) (abs_nonneg _)
        calc (10 : ℚ) = 10 ^ (1 : ℤ) := (zpow_one 10).symm
          _ ≤ 10 ^ (e + k) := zpow_le_zpow_right₀ (by norm_num) hdigit
    _ = |inContext p x| * 10 ^ k := by
        rw [inContext, abs_mul, abs_of_pos hunit, zpow_add₀ (by norm_num), zpow_natCast, mul_assoc]

/-! ## Grids -/

/-- A multiple of `10 ^ -k`. -/
def OnGrid (k : ℕ) (x : ℚ) : Prop :=
  ∃ n : ℤ, x = n / 10 ^ k

theorem OnGrid.zero : OnGrid k 0 := ⟨0, by simp⟩

theorem OnGrid.add {y : ℚ} (hx : OnGrid k x) (hy : OnGrid k y) : OnGrid k (x + y) := by
  obtain ⟨m, rfl⟩ := hx
  obtain ⟨n, rfl⟩ := hy
  exact ⟨m + n, by push_cast; ring⟩

theorem OnGrid.neg (hx : OnGrid k x) : OnGrid k (-x) := by
  obtain ⟨m, rfl⟩ := hx
  exact ⟨-m, by push_cast; ring⟩

theorem OnGrid.sub {y : ℚ} (hx : OnGrid k x) (hy : OnGrid k y) : OnGrid k (x - y) := by
  rw [sub_eq_add_neg]
  exact hx.add hy.neg

theorem OnGrid.sum {l : List ℚ} (h : ∀ x ∈ l, OnGrid k x) : OnGrid k l.sum := by
  induction l with
  | nil => exact OnGrid.zero
  | cons x rest ih =>
    rw [List.sum_cons]
    exact (h x (List.mem_cons_self ..)).add (ih fun y hy => h y (List.mem_cons_of_mem _ hy))

/-- **A number of at most `p` digits on a grid is not moved.** -/
theorem inContext_eq_self (hgrid : OnGrid k x) (hsmall : |x| * 10 ^ k < 10 ^ p) :
    inContext p x = x := by
  obtain ⟨n, rfl⟩ := hgrid
  have hk : (0 : ℚ) < 10 ^ k := by positivity
  rcases eq_or_ne n 0 with rfl | hn
  · have h := halfEven_intCast 0
    simp only [Int.cast_zero] at h
    simp [inContext, h]
  set x : ℚ := n / 10 ^ k with hx
  have hpos : 0 < |x| := abs_pos.mpr (by positivity)
  -- The last digit is below the grid, so the number is a multiple of it.
  have hdigit : lastDigit p x ≤ -(k : ℤ) := by
    have hlog : Int.log 10 |x| < (p : ℤ) - k := by
      rw [← Int.lt_zpow_iff_log_lt (by norm_num) hpos]
      push_cast
      rw [zpow_sub₀ (by norm_num), zpow_natCast, zpow_natCast, lt_div_iff₀ hk]
      exact hsmall
    unfold lastDigit
    omega
  obtain ⟨e, he⟩ := Int.eq_ofNat_of_zero_le (show 0 ≤ -(k : ℤ) - lastDigit p x by omega)
  have hmultiple : x / 10 ^ lastDigit p x = ((n * 10 ^ e : ℤ) : ℚ) := by
    have hexp : lastDigit p x = -(k : ℤ) - e := by omega
    rw [hexp, zpow_sub₀ (by norm_num), zpow_neg, zpow_natCast, zpow_natCast, hx]
    push_cast
    field_simp
  rw [inContext, hmultiple, halfEven_intCast, ← hmultiple,
    div_mul_cancel₀ _ (zpow_pos (by norm_num) _).ne']

/-- `quantize`: onto the grid of `10 ^ -k`, in a rounding mode; an error if the result needs more
than `p` digits. -/
def quantize (p k : ℕ) (mode : ℚ → ℤ) (x : ℚ) : Except String ℚ :=
  if |mode (x * 10 ^ k)| < 10 ^ p then .ok (mode (x * 10 ^ k) / 10 ^ k)
  else .error "decimal.InvalidOperation"

theorem quantize_eq_ok {mode : ℚ → ℤ} {y : ℚ} (h : quantize p k mode x = .ok y) :
    y = mode (x * 10 ^ k) / 10 ^ k ∧ OnGrid k y := by
  unfold quantize at h
  split at h
  · obtain rfl := Except.ok.inj h
    exact ⟨rfl, _, rfl⟩
  · cases h

theorem quantize_ok {mode : ℚ → ℤ} (h : |(mode (x * 10 ^ k) : ℚ)| < 10 ^ p) :
    quantize p k mode x = .ok (mode (x * 10 ^ k) / 10 ^ k) := by
  unfold quantize
  rw [if_pos (by exact_mod_cast h)]

/-- A whole number of units, computed in the context and put on the grid: it is short, or an
error. -/
theorem quantize_inContext (hp : p ≠ 0) (n : ℤ) :
    quantize p k halfEven (inContext p (n / 10 ^ k)) =
      if |n| < 10 ^ p then .ok (n / 10 ^ k) else .error "decimal.InvalidOperation" := by
  have hk : (0 : ℚ) < 10 ^ k := by positivity
  have hscaled : |(n : ℚ) / 10 ^ k| * 10 ^ k = |(n : ℚ)| := by
    rw [abs_div, abs_of_pos hk, div_mul_cancel₀ _ hk.ne']
  split
  · rename_i hshort
    have hsmall : |(n : ℚ) / 10 ^ k| * 10 ^ k < 10 ^ p := by
      rw [hscaled]
      exact_mod_cast hshort
    rw [inContext_eq_self ⟨n, rfl⟩ hsmall]
    unfold quantize
    rw [div_mul_cancel₀ _ hk.ne', halfEven_intCast, if_pos hshort]
  · rename_i hlong
    have hlarge : (10 : ℚ) ^ p ≤ |(n : ℚ) / 10 ^ k| * 10 ^ k := by
      rw [hscaled]
      exact_mod_cast not_lt.mp hlong
    -- Rounding to the digits of the context keeps it as large.
    have hkept := le_abs_inContext_mul hp hlarge
    unfold quantize
    rw [if_neg]
    rw [not_lt, abs_halfEven, abs_mul, abs_of_pos hk]
    apply le_halfEven
    push_cast
    exact hkept

/-- **A fraction of a few digits is rounded the same after it was rounded to the context**: it is a
multiple of one half, and exact there, or further from the next one than it is moved. -/
theorem mode_inContext {mode : ℚ → ℤ} (hmode : BetweenHalves mode) (hp : p ≠ 0) {n d : ℕ}
    (hd : 0 < d) (hn : n < 10 ^ (p - 1)) :
    mode (inContext p (n / d / 10 ^ k) * 10 ^ k) = mode (n / d) := by
  have hk : (0 : ℚ) < 10 ^ k := by positivity
  have hd' : (0 : ℚ) < d := by exact_mod_cast hd
  have hn' : (n : ℚ) < 10 ^ (p - 1) := by exact_mod_cast hn
  have hratio : (0 : ℚ) ≤ n / d := by positivity
  by_cases hhalf : d ∣ 2 * n
  · obtain ⟨m, hm⟩ := hhalf
    have hexact : inContext p ((n : ℚ) / d / 10 ^ k) = n / d / 10 ^ k := by
      apply inContext_eq_self (k := k + 1)
      · refine ⟨5 * m, ?_⟩
        have hm' : 2 * (n : ℚ) = d * m := by exact_mod_cast hm
        rw [div_div, div_eq_div_iff (by positivity) (by positivity), pow_succ]
        push_cast
        linear_combination 5 * 10 ^ k * hm'
      · rw [abs_of_nonneg (by positivity), pow_succ, ← mul_assoc, div_mul_cancel₀ _ hk.ne']
        have hle : (n : ℚ) / d ≤ n := div_le_self (by positivity) (by exact_mod_cast hd)
        have hpow : (10 : ℚ) ^ p = 10 ^ (p - 1) * 10 := by
          rw [← pow_succ, Nat.sub_add_cancel (Nat.one_le_iff_ne_zero.mpr hp)]
        rw [hpow]
        linarith
    rw [hexact, div_mul_cancel₀ _ hk.ne']
  · set y := inContext p ((n : ℚ) / d / 10 ^ k) * 10 ^ k with hy
    have hmove : |y - n / d| < 1 / (2 * d) := by
      have hscale : y - n / d = (inContext p ((n : ℚ) / d / 10 ^ k) - n / d / 10 ^ k) * 10 ^ k := by
        rw [sub_mul, div_mul_cancel₀ _ hk.ne']
      have hstep := abs_inContext_sub_le p ((n : ℚ) / d / 10 ^ k)
      rw [abs_of_nonneg (a := (n : ℚ) / d / 10 ^ k) (by positivity)] at hstep
      have hpow : (10 : ℚ) ^ (1 - (p : ℤ)) = 1 / 10 ^ (p - 1) := by
        have hexp : 1 - (p : ℤ) = -((p - 1 : ℕ) : ℤ) := by omega
        rw [hexp, zpow_neg, zpow_natCast, one_div]
      rw [hscale, abs_mul, abs_of_pos hk]
      calc |inContext p ((n : ℚ) / d / 10 ^ k) - n / d / 10 ^ k| * 10 ^ k
          ≤ n / d / 10 ^ k * (10 ^ (1 - (p : ℤ)) / 2) * 10 ^ k := by gcongr
        _ = n / 10 ^ (p - 1) * (1 / (2 * d)) := by
            rw [hpow]
            field_simp
        _ < 1 * (1 / (2 * d)) := by
            apply mul_lt_mul_of_pos_right _ (by positivity)
            rw [div_lt_one (by positivity)]
            exact hn'
        _ = 1 / (2 * d) := one_mul _
    have hbetween : ((2 * n / d : ℕ) : ℚ) + 1 / d ≤ 2 * (n / d) ∧
        2 * ((n : ℚ) / d) + 1 / d ≤ (2 * n / d : ℕ) + 1 := by
      -- Twice the fraction is no integer, so it is a `d`-th away from the next ones.
      have hrem : 0 < 2 * n % d := Nat.pos_of_ne_zero fun h => hhalf (Nat.dvd_of_mod_eq_zero h)
      have hrem' := Nat.mod_lt (2 * n) hd
      have hsplit := Nat.div_add_mod (2 * n) d
      have hlow : d * (2 * n / d) + 1 ≤ 2 * n := by omega
      have hhigh : 2 * n + 1 ≤ d * (2 * n / d) + d := by omega
      have hlow' : (d : ℚ) * (2 * n / d : ℕ) + 1 ≤ 2 * n := by exact_mod_cast hlow
      have hhigh' : 2 * (n : ℚ) + 1 ≤ d * (2 * n / d : ℕ) + d := by exact_mod_cast hhigh
      constructor
      · rw [← mul_div_assoc, le_div_iff₀ hd', add_mul, div_mul_cancel₀ _ hd'.ne']
        linarith
      · rw [← mul_div_assoc, ← add_div, div_le_iff₀ hd']
        linarith
    have hfloor : ∀ z : ℚ, |z - n / d| < 1 / (2 * d) →
        ⌊2 * z⌋ = (2 * n / d : ℕ) ∧ 2 * z ≠ ⌊2 * z⌋ := by
      intro z hz
      obtain ⟨hleft, hright⟩ := abs_lt.mp hz
      have htwice : 1 / (d : ℚ) = 2 * (1 / (2 * d)) := by
        field_simp
      have hlt : ((2 * n / d : ℕ) : ℚ) < 2 * z := by linarith [hbetween.1]
      have heq : ⌊2 * z⌋ = (2 * n / d : ℕ) := by
        rw [Int.floor_eq_iff, Int.cast_natCast]
        constructor <;> linarith [hbetween.2]
      refine ⟨heq, ?_⟩
      rw [heq, Int.cast_natCast]
      exact hlt.ne'
    have hzero : |(n : ℚ) / d - n / d| < 1 / (2 * d) := by
      rw [sub_self, abs_zero]
      positivity
    obtain ⟨hfloor₁, hne₁⟩ := hfloor y hmove
    obtain ⟨hfloor₂, hne₂⟩ := hfloor _ hzero
    apply hmode _ hratio (hfloor₁.trans hfloor₂.symm) hne₁ hne₂
    exact mul_nonneg (inContext_nonneg (by positivity)) hk.le

/-! ## Sums -/

/-- Terms added one after the other, each result in the context. -/
def total (p : ℕ) (l : List ℚ) : ℚ :=
  l.foldl (fun sum x => inContext p (sum + x)) 0

/-- **A sum on a grid is exact** if the terms' absolute values add up to less than `p` digits. -/
theorem total_eq_sum {l : List ℚ} (hgrid : ∀ x ∈ l, OnGrid k x)
    (hsmall : (l.map (|·|)).sum * 10 ^ k < 10 ^ p) : total p l = l.sum := by
  have hk : (0 : ℚ) < 10 ^ k := by positivity
  have hgen : ∀ start : ℚ, OnGrid k start → (|start| + (l.map (|·|)).sum) * 10 ^ k < 10 ^ p →
      l.foldl (fun sum x => inContext p (sum + x)) start = start + l.sum := by
    induction l with
    | nil => intro start _ _; simp
    | cons x rest ih =>
      intro start hstart hbound
      rw [List.map_cons, List.sum_cons] at hbound
      have hrest : 0 ≤ (rest.map (|·|)).sum := List.sum_nonneg fun y hy => by
        obtain ⟨z, -, rfl⟩ := List.mem_map.mp hy
        exact abs_nonneg z
      have hx := hgrid x (List.mem_cons_self ..)
      have hadd : |start + x| ≤ |start| + |x| := abs_add_le start x
      -- The partial sum is exact, and stays within the bound.
      have hexact : inContext p (start + x) = start + x := by
        apply inContext_eq_self (hstart.add hx)
        refine lt_of_le_of_lt (mul_le_mul_of_nonneg_right ?_ hk.le) hbound
        linarith
      rw [List.foldl_cons, hexact, List.sum_cons, ← add_assoc]
      apply ih (fun y hy => hgrid y (List.mem_cons_of_mem _ hy))
      · refine lt_of_le_of_lt (mul_le_mul_of_nonneg_right ?_ hk.le) hsmall
        rw [List.map_cons, List.sum_cons]
        linarith [abs_nonneg x]
      · exact hstart.add hx
      · refine lt_of_le_of_lt (mul_le_mul_of_nonneg_right ?_ hk.le) hbound
        linarith
  unfold total
  rw [hgen 0 OnGrid.zero (by simpa using hsmall), zero_add]

example : inContext 3 (2 / 3) = 667 / 1000 := by decide +kernel

end Decimals
