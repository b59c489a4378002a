import Mathlib.Algebra.Order.Round
import Mathlib.Algebra.Ring.Int.Parity
import Mathlib.Data.Int.Log
import Mathlib.Data.Rat.Floor
import Mathlib.Tactic.FieldSimp
import Mathlib.Tactic.Linarith
import Mathlib.Tactic.Positivity

/-!
# Rounding to a number of binary digits

Numbers with `p` significant binary digits and exponents of any size.

* `roundTiesEven`: the nearest integer, of two the even one;
* `nearest p x`: the nearest number with `p` digits, of two the one with the even significand;
* `nearest_intCast`: integers below `2 ^ p` are such numbers;
* `ceil_nearest_div`: **a quotient of an integer below `2 ^ p` keeps its ceiling**.
-/

namespace Lib

/-- The nearest integer, of two the even one. -/
def roundTiesEven (x : ℚ) : ℤ :=
  if Int.fract x = 1 / 2 then if Even ⌊x⌋ then ⌊x⌋ else ⌊x⌋ + 1 else round x

/-- The distance of the numbers with `p` digits around `x`. -/
def ulp (p : ℕ) (x : ℚ) : ℚ := 2 ^ (Int.log 2 |x| + 1 - p)

/-- The nearest number with `p` digits. -/
def nearest (p : ℕ) (x : ℚ) : ℚ := roundTiesEven (x / ulp p x) * ulp p x

theorem roundTiesEven_intCast (n : ℤ) : roundTiesEven n = n := by
  rw [roundTiesEven, Int.fract_intCast, if_neg (by norm_num), round_intCast]

theorem abs_sub_roundTiesEven_le (x : ℚ) : |x - roundTiesEven x| ≤ 1 / 2 := by
  rw [roundTiesEven]
  have hfloor := Int.self_sub_floor x
  split_ifs with htie heven
  · rw [hfloor, htie]
    exact (abs_of_nonneg (by norm_num)).le
  · have hup : x - ((⌊x⌋ + 1 : ℤ) : ℚ) = -(1 / 2) := by
      push_cast
      linarith
    rw [hup, abs_neg]
    exact (abs_of_nonneg (by norm_num)).le
  · exact abs_sub_round x

section Nearest

variable {p : ℕ} {x : ℚ}

theorem ulp_pos : 0 < ulp p x := zpow_pos two_pos _

theorem abs_sub_nearest_le : |x - nearest p x| ≤ ulp p x / 2 := by
  have hx : x - nearest p x = (x / ulp p x - roundTiesEven (x / ulp p x)) * ulp p x := by
    rw [nearest, sub_mul, div_mul_cancel₀ _ ulp_pos.ne']
  rw [hx, abs_mul, abs_of_pos ulp_pos]
  calc _ ≤ 1 / 2 * ulp p x :=
        mul_le_mul_of_nonneg_right (abs_sub_roundTiesEven_le _) ulp_pos.le
    _ = ulp p x / 2 := by ring

theorem ulp_mul_le (hx : x ≠ 0) : ulp p x * 2 ^ p ≤ 2 * |x| := by
  have hlog := Int.zpow_log_le_self one_lt_two (abs_pos.2 hx)
  have hsplit : ulp p x * 2 ^ p = 2 * 2 ^ Int.log 2 |x| := by
    rw [ulp, zpow_sub₀ two_ne_zero, zpow_add_one₀ two_ne_zero, zpow_natCast]
    field_simp
  rw [hsplit]
  exact mul_le_mul_of_nonneg_left (by exact_mod_cast hlog) zero_le_two

/-- An integer below `2 ^ p` has `p` digits. -/
theorem nearest_intCast {n : ℤ} (hn : |n| < 2 ^ p) : nearest p n = n := by
  rcases eq_or_ne n 0 with rfl | hne
  · rw [nearest, Int.cast_zero, zero_div, ← Int.cast_zero, roundTiesEven_intCast, Int.cast_zero,
      zero_mul]
  have hpos : (0 : ℚ) < |(n : ℚ)| := abs_pos.2 (Int.cast_ne_zero.2 hne)
  have hlog : Int.log 2 |(n : ℚ)| < p := by
    refine (Int.lt_zpow_iff_log_lt one_lt_two hpos).1 ?_
    rw [Nat.cast_ofNat, zpow_natCast]
    exact_mod_cast hn
  -- in units of its last place the integer is an integer again
  obtain ⟨k, hk⟩ : ∃ k : ℕ, Int.log 2 |(n : ℚ)| + 1 - p = -k :=
    ⟨(p - (Int.log 2 |(n : ℚ)| + 1)).toNat, by omega⟩
  have hunits : (n : ℚ) / ulp p n = ((n * 2 ^ k : ℤ) : ℚ) := by
    rw [ulp, hk, zpow_neg, zpow_natCast, div_inv_eq_mul]
    push_cast
    rfl
  rw [nearest, hunits, roundTiesEven_intCast, ← hunits, div_mul_cancel₀ _ ulp_pos.ne']

/-- A quotient is rounded by less than its distance to an integer that it is not. -/
theorem abs_sub_nearest_lt {w s : ℤ} (hw : |w| < 2 ^ p) (hs : 0 < s) :
    |(w / s : ℚ) - nearest p (w / s)| < 1 / s := by
  have hs' : (0 : ℚ) < s := Int.cast_pos.2 hs
  rcases eq_or_ne w 0 with rfl | hne
  · rw [Int.cast_zero, zero_div, ← Int.cast_zero, nearest_intCast (by simp), sub_self, abs_zero]
    positivity
  have hx : (w / s : ℚ) ≠ 0 := div_ne_zero (Int.cast_ne_zero.2 hne) hs'.ne'
  have hpow : (0 : ℚ) < 2 ^ p := by positivity
  have habs : |(w / s : ℚ)| < 2 ^ p / s := by
    rw [abs_div, abs_of_pos hs']
    exact div_lt_div_of_pos_right (by exact_mod_cast hw) hs'
  have hulp : ulp p (w / s : ℚ) * 2 ^ p < 2 * (1 / s) * 2 ^ p := by
    calc _ ≤ 2 * |(w / s : ℚ)| := ulp_mul_le hx
      _ < 2 * (2 ^ p / s) := by linarith
      _ = 2 * (1 / s) * 2 ^ p := by ring
  have := lt_of_mul_lt_mul_right hulp hpow.le
  exact abs_sub_nearest_le.trans_lt (by linarith)

/-- **The ceiling of a quotient.** -/
theorem ceil_nearest_div {w s : ℤ} (hw : |w| < 2 ^ p) (hs : 0 < s) :
    ⌈nearest p (w / s)⌉ = ⌈(w / s : ℚ)⌉ := by
  have hs' : (0 : ℚ) < s := Int.cast_pos.2 hs
  obtain ⟨hgt, hle⟩ := Int.ceil_eq_iff.1 (rfl : ⌈(w / s : ℚ)⌉ = _)
  generalize ⌈(w / s : ℚ)⌉ = m at hgt hle ⊢
  obtain ⟨herr, herr'⟩ := abs_lt.1 (abs_sub_nearest_lt hw hs)
  have hbelow : (m : ℚ) - 1 + 1 / s ≤ w / s := by
    have hlt : (m - 1) * s < w := by
      have := (lt_div_iff₀ hs').1 hgt
      exact_mod_cast this
    have hle' : ((m - 1) * s + 1 : ℚ) ≤ w := by exact_mod_cast Int.add_one_le_of_lt hlt
    rw [le_div_iff₀ hs', add_mul, one_div_mul_cancel hs'.ne']
    exact hle'
  refine Int.ceil_eq_iff.2 ⟨by linarith, ?_⟩
  rcases eq_or_lt_of_le hle with heq | hlt
  · have hm : |m| < 2 ^ p := by
      have hw' : w = m * s := by
        have := (div_eq_iff hs'.ne').1 heq
        exact_mod_cast this
      have hone : |m| * 1 ≤ |m| * |s| :=
        mul_le_mul_of_nonneg_left (Int.one_le_abs hs.ne') (abs_nonneg m)
      rw [mul_one, ← abs_mul, ← hw'] at hone
      exact hone.trans_lt hw
    rw [heq, nearest_intCast hm]
  · have habove : (w / s : ℚ) + 1 / s ≤ m := by
      have hlt' : w < m * s := by
        have := (div_lt_iff₀ hs').1 hlt
        exact_mod_cast this
      rw [← add_div, div_le_iff₀ hs']
      exact_mod_cast Int.add_one_le_of_lt hlt'
    linarith

end Nearest

end Lib
