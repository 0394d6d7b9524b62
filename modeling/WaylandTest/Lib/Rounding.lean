import Mathlib.Algebra.Order.Field.Basic
import Mathlib.Data.Int.Log
import Mathlib.Data.Rat.Floor
import Mathlib.Tactic.FieldSimp
import Mathlib.Tactic.Linarith
import Mathlib.Tactic.NormNum
import Mathlib.Tactic.Ring

/-!
# Rounding to a binary floating-point format

The finite numbers of a format are rationals, and an operation of the format is the exact one with
its result rounded. `FloatFormat.round` is round to nearest, ties to even, with gradual underflow.
It has no largest exponent: a user bounds its numbers.

`abs_round_sub_le` bounds the error of one rounding by a power of two that the number is below, and
`round_intCast` says that a rounding keeps the integers that fit. Both are about one operation: the
error of an expression is the sum of its operations' errors, each times what it is multiplied by.
-/

set_option autoImplicit false

namespace WaylandTest.Lib

/-- The integer nearest to `q`; of two that are as near, the even one. -/
def nearestEven (q : ℚ) : ℤ :=
  if q - ⌊q⌋ < 1 / 2 ∨ q - ⌊q⌋ = 1 / 2 ∧ ⌊q⌋ % 2 = 0 then ⌊q⌋ else ⌊q⌋ + 1

theorem nearestEven_intCast (n : ℤ) : nearestEven n = n := by
  unfold nearestEven
  rw [Int.floor_intCast, sub_self]
  exact if_pos (.inl (by norm_num))

theorem abs_nearestEven_sub_le (q : ℚ) : |(nearestEven q : ℚ) - q| ≤ 1 / 2 := by
  have hlow := Int.floor_le q
  have hhigh := Int.lt_floor_add_one q
  unfold nearestEven
  split
  · next h =>
    have hhalf : q - ⌊q⌋ ≤ 1 / 2 := h.elim le_of_lt fun h => le_of_eq h.1
    rw [abs_le]
    constructor <;> linarith
  · next h =>
    have hhalf : 1 / 2 ≤ q - ⌊q⌋ := not_lt.mp fun hlt => h (.inl hlt)
    push_cast
    rw [abs_le]
    constructor <;> linarith

theorem nearestEven_nonneg {q : ℚ} (hq : 0 ≤ q) : 0 ≤ nearestEven q := by
  have hfloor := Int.floor_nonneg.mpr hq
  unfold nearestEven
  split
  · exact hfloor
  · omega

/-- The floor of a number that is less than `1 / d` from `n / d`. -/
theorem floor_near {n d : ℕ} {v : ℚ} (hd : 0 < d) (h : |v - n / d| < 1 / d) :
    ⌊v⌋ = (n / d : ℕ) ∨ d ∣ n ∧ ⌊v⌋ + 1 = (n / d : ℕ) := by
  have hd' : (0 : ℚ) < d := by exact_mod_cast hd
  have hlow : ((n : ℚ) - 1) / d < v := by
    have := (abs_lt.mp h).1
    rw [sub_div]
    linarith
  have hhigh : v < ((n : ℚ) + 1) / d := by
    have := (abs_lt.mp h).2
    rw [add_div]
    linarith
  rw [div_lt_iff₀ hd'] at hlow
  rw [lt_div_iff₀ hd'] at hhigh
  have hdiv : (n : ℚ) = d * (n / d : ℕ) + (n % d : ℕ) := by
    exact_mod_cast (Nat.div_add_mod n d).symm
  have hmod : (n % d : ℕ) + 1 ≤ d := Nat.mod_lt n hd
  have hmod' : ((n % d : ℕ) : ℚ) + 1 ≤ d := by exact_mod_cast hmod
  -- the number is below the next integer
  have htop : v < (n / d : ℕ) + 1 := by
    refine lt_of_mul_lt_mul_right ?_ hd'.le
    linarith
  rcases Nat.eq_zero_or_pos (n % d) with hzero | hpos
  · rw [hzero, Nat.cast_zero] at hdiv
    have hbottom : ((n / d : ℕ) : ℚ) - 1 < v := by
      have hone : (1 : ℚ) ≤ d := by exact_mod_cast hd
      refine lt_of_mul_lt_mul_right ?_ hd'.le
      linarith
    by_cases hv : ((n / d : ℕ) : ℚ) ≤ v
    · left
      rw [Int.floor_eq_iff]
      exact ⟨by exact_mod_cast hv, by exact_mod_cast htop⟩
    · right
      refine ⟨Nat.dvd_of_mod_eq_zero hzero, ?_⟩
      rw [← eq_sub_iff_add_eq, Int.floor_eq_iff, Int.cast_sub, Int.cast_one, Int.cast_natCast,
        sub_add_cancel]
      exact ⟨hbottom.le, not_le.mp hv⟩
  · left
    have hone : (1 : ℚ) ≤ (n % d : ℕ) := by exact_mod_cast hpos
    rw [Int.floor_eq_iff]
    refine ⟨?_, by exact_mod_cast htop⟩
    have hle : ((n / d : ℕ) : ℚ) * d ≤ v * d := by linarith
    exact_mod_cast le_of_mul_le_mul_right hle hd'

/-- A binary format: its significands have `precision` digits, and no digit is worth less than
`2 ^ emin`. -/
structure FloatFormat where
  precision : ℕ
  emin : ℤ
deriving DecidableEq, Repr

/-- The exponent of the last digit of `x`. -/
def FloatFormat.exponent (F : FloatFormat) (x : ℚ) : ℤ :=
  max (Int.log 2 |x| + 1 - F.precision) F.emin

/-- What the last digit of `x` is worth. -/
def FloatFormat.ulp (F : FloatFormat) (x : ℚ) : ℚ := 2 ^ F.exponent x

/-- `x`, rounded to the format. -/
def FloatFormat.round (F : FloatFormat) (x : ℚ) : ℚ := nearestEven (x / F.ulp x) * F.ulp x

namespace FloatFormat

variable {F : FloatFormat} {x : ℚ}

theorem ulp_pos (F : FloatFormat) (x : ℚ) : 0 < F.ulp x := zpow_pos (by norm_num) _

theorem round_nonneg (hx : 0 ≤ x) : 0 ≤ F.round x :=
  mul_nonneg (Int.cast_nonneg (nearestEven_nonneg (div_nonneg hx (F.ulp_pos x).le)))
    (F.ulp_pos x).le

/-- The error of a rounding is half of the last digit at most. -/
theorem abs_round_sub_le_ulp (F : FloatFormat) (x : ℚ) : |F.round x - x| ≤ F.ulp x / 2 := by
  have hpos := F.ulp_pos x
  have hscale : F.round x - x = (nearestEven (x / F.ulp x) - x / F.ulp x) * F.ulp x := by
    rw [sub_mul, div_mul_cancel₀ _ hpos.ne']
    rfl
  rw [hscale, abs_mul, abs_of_pos hpos]
  calc |(nearestEven (x / F.ulp x) : ℚ) - x / F.ulp x| * F.ulp x
      ≤ 1 / 2 * F.ulp x := by
        exact mul_le_mul_of_nonneg_right (abs_nearestEven_sub_le _) hpos.le
    _ = F.ulp x / 2 := by ring

/-- The exponent of a number below `2 ^ k`. -/
theorem exponent_le {k : ℤ} (hk : 0 < k) (hx : |x| < 2 ^ k) :
    F.exponent x ≤ max (k - F.precision) F.emin := by
  have hlog : Int.log 2 |x| < k := by
    rcases (abs_nonneg x).eq_or_lt with h | h
    · rwa [← h, Int.log_zero_right]
    · exact (Int.lt_zpow_iff_log_lt Nat.one_lt_two h).mp (by exact_mod_cast hx)
  unfold exponent
  omega

/-- The error of a rounding, by a power of two that the number is below. -/
theorem abs_round_sub_le {k : ℤ} (hk : 0 < k) (hx : |x| < 2 ^ k)
    (hmin : F.emin ≤ k - F.precision) : |F.round x - x| ≤ 2 ^ (k - F.precision) / 2 := by
  have hexp := exponent_le (F := F) hk hx
  rw [max_eq_left hmin] at hexp
  have hulp : F.ulp x ≤ 2 ^ (k - F.precision) := zpow_le_zpow_right₀ one_le_two hexp
  have herr := F.abs_round_sub_le_ulp x
  linarith

/-- An integer of at most `precision` digits is kept. -/
theorem round_intCast {n : ℤ} (hmin : F.emin ≤ 0) (hpos : 0 < F.precision)
    (hn : |n| < 2 ^ F.precision) : F.round n = n := by
  have hlt : |(n : ℚ)| < 2 ^ (F.precision : ℤ) := by
    rw [zpow_natCast]
    exact_mod_cast hn
  have hexp : F.exponent n ≤ 0 := by
    have hle := exponent_le (F := F) (by exact_mod_cast hpos) hlt
    omega
  -- in units of its last digit, the number is an integer
  obtain ⟨e, he⟩ := Int.eq_ofNat_of_zero_le (neg_nonneg.mpr hexp)
  have hulp : F.ulp n = (2 ^ e)⁻¹ := by
    unfold ulp
    rw [← neg_neg (F.exponent n), zpow_neg, he, zpow_natCast]
  have hunits : (n : ℚ) / F.ulp n = ((n * 2 ^ e : ℤ) : ℚ) := by
    rw [hulp, div_inv_eq_mul]
    push_cast
    rfl
  unfold round
  rw [hunits, nearestEven_intCast, ← hunits, div_mul_cancel₀ _ (F.ulp_pos n).ne']

end FloatFormat

end WaylandTest.Lib
