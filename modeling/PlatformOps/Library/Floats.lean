import PlatformOps.Library.Decimals

/-!
# Binary Floating Point

A float is a rational here: so many bits of mantissa, and an exponent within bounds. What an
operation returns is the float nearest to its exact result, a tie to the even mantissa.

- `Format.nearest`: the nearest float, as if there were no largest one.
- `Format.scaled`: a number times a power of ten, in floating point.
- `Format.shortest`: the fewest decimal digits that are read back as a float.
- `toFloat`: the nearest double.
-/

namespace Floats

open Decimals

/-- A binary format. -/
structure Format where
  /-- The bits of a mantissa. -/
  mantissa : ℕ
  /-- The exponent of the last bit of the smallest numbers. -/
  minExponent : ℤ
  /-- The exponent of the first power of two that is too large. -/
  maxExponent : ℕ
deriving DecidableEq, Repr

def binary64 : Format := ⟨53, -1074, 1024⟩

def binary32 : Format := ⟨24, -149, 128⟩

namespace Format

variable (f : Format)

/-- What the last bit of a float next to a number is worth. -/
def lastBit (x : ℚ) : ℚ :=
  2 ^ max (Int.log 2 |x| + 1 - f.mantissa) f.minExponent

/-- The nearest float. -/
def nearest (x : ℚ) : ℚ :=
  halfEven (x / f.lastBit x) * f.lastBit x

/-- Whether the nearest float is finite. -/
def Fits (x : ℚ) : Prop :=
  |f.nearest x| < 2 ^ f.maxExponent

instance (x : ℚ) : Decidable (f.Fits x) :=
  inferInstanceAs (Decidable (|f.nearest x| < 2 ^ f.maxExponent))

/-- `x * 10 ** k`, each factor and the product a float. -/
def scaled (k : ℕ) (x : ℚ) : ℚ :=
  f.nearest (f.nearest x * f.nearest (10 ^ k))

/-- The two decimals of `p` digits around a number, the nearer one first. -/
def neighbours (p : ℕ) (x : ℚ) : List ℚ :=
  let near := inContext p x
  let unit := (10 : ℚ) ^ lastDigit p x
  [near, if near < x then near + unit else near - unit]

/-- The decimal with the fewest digits that is read back as the float, the nearest one of these;
17 digits are always enough for 53 bits. -/
def shortest (x : ℚ) : ℚ :=
  let readBack (p : ℕ) := (neighbours p x).find? fun y => f.nearest y = x
  ((List.range' 1 17).findSome? readBack).getD x

/-! ## How far a number is moved -/

/-- At most to twice the number: what is less than half of the last bit becomes 0. -/
theorem abs_nearest_le (x : ℚ) : |f.nearest x| ≤ 2 * |x| := by
  have hbit : 0 < f.lastBit x := zpow_pos (by norm_num) _
  have hround : |(halfEven (x / f.lastBit x) : ℚ)| ≤ 2 * |x / f.lastBit x| := by
    rcases le_or_gt (1 / 2) |x / f.lastBit x| with hlarge | hsmall
    · have hle := abs_halfEven_le (x / f.lastBit x)
      linarith
    · have hle := abs_halfEven_le (x / f.lastBit x)
      have hlt : |halfEven (x / f.lastBit x)| < 1 := by
        have hone : |(halfEven (x / f.lastBit x) : ℚ)| < 1 := by linarith
        exact_mod_cast hone
      rw [Int.abs_lt_one_iff.mp hlt, Int.cast_zero, abs_zero]
      positivity
  calc |f.nearest x| = |(halfEven (x / f.lastBit x) : ℚ)| * f.lastBit x := by
        rw [nearest, abs_mul, abs_of_pos hbit]
    _ ≤ 2 * |x / f.lastBit x| * f.lastBit x := mul_le_mul_of_nonneg_right hround hbit.le
    _ = 2 * |x| := by
        rw [abs_div, abs_of_pos hbit, mul_assoc, div_mul_cancel₀ _ hbit.ne']

theorem abs_scaled_le (k : ℕ) (x : ℚ) : |f.scaled k x| ≤ 8 * |x * 10 ^ k| := by
  have hunit : (0 : ℚ) < 10 ^ k := by positivity
  have hx := f.abs_nearest_le x
  have hpow := f.abs_nearest_le (10 ^ k)
  calc |f.scaled k x| ≤ 2 * |f.nearest x * f.nearest (10 ^ k)| := f.abs_nearest_le _
    _ ≤ 2 * (2 * |x| * (2 * |(10 : ℚ) ^ k|)) := by
        rw [abs_mul]
        gcongr
    _ = 8 * |x * 10 ^ k| := by
        rw [abs_mul]
        ring

theorem nearest_nonneg {x : ℚ} (h : 0 ≤ x) : 0 ≤ f.nearest x := by
  have hbit : 0 < f.lastBit x := zpow_pos (by norm_num) _
  have hround : (0 : ℚ) ≤ halfEven (x / f.lastBit x) := by
    exact_mod_cast halfEven_nonneg (div_nonneg h hbit.le)
  exact mul_nonneg hround hbit.le

end Format

/-- The double nearest to a number. -/
def toFloat (x : ℚ) : ℚ :=
  binary64.nearest x

theorem toFloat_nonneg {x : ℚ} (h : 0 ≤ x) : 0 ≤ toFloat x :=
  binary64.nearest_nonneg h

/-! 0.1 + 0.2 is not 0.3; what is read back as 0.1 is one digit. -/

example : toFloat (toFloat (1 / 10) + toFloat (2 / 10)) ≠ toFloat (3 / 10) := by
  decide +kernel

example : binary64.shortest (toFloat (1 / 10)) = 1 / 10 := by
  decide +kernel

end Floats
