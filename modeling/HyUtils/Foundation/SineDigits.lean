import Mathlib.Analysis.Complex.Basic
import Mathlib.Analysis.Complex.Trigonometric
import Mathlib.Tactic.NormNum
import Mathlib.Tactic.LinearCombination

/-!
# Integer parts of multiples of sines

The sine of a natural number `n` is the imaginary part of the `n`-th power of `exp i`. A rational
point of the unit disc near `exp i` has powers that are computed in the Gaussian integers, and stay
within `n` times its distance. So the integer part of a multiple of `|sin n|` is a matter of
integers.

## Main definitions

* `gaussPow a b n`: the `n`-th power of the Gaussian integer `a + b i`
* `Certified m n k`: the inequalities of integers that make `k` the integer part of `m * |sin n|`

## Main results

* `abs_sin_sub_le`: the sine of a natural number, to fifteen digits
* `floor_mul_abs_sin`: the integer part of a multiple of a sine
-/

namespace SineDigits

open Complex

/-! ## Powers -/

/-- The `n`-th power of the Gaussian integer `a + b i`. -/
def gaussPow (a b : ℤ) : ℕ → ℤ × ℤ
  | 0 => (1, 0)
  | n + 1 =>
    let (x, y) := gaussPow a b n
    (x * a - y * b, x * b + y * a)

theorem gaussPow_cast (a b : ℤ) (n : ℕ) :
    ((gaussPow a b n).1 : ℂ) + (gaussPow a b n).2 * I = ((a : ℂ) + b * I) ^ n := by
  induction n with
  | zero => simp [gaussPow]
  | succ n ih =>
    rw [pow_succ, ← ih, gaussPow]
    push_cast
    linear_combination (-(gaussPow a b n).2 * b : ℂ) * I_sq

/-- Powers in the unit disc stay within `n` times the distance of their bases. -/
theorem norm_pow_sub_pow_le {z w : ℂ} (hz : ‖z‖ ≤ 1) (hw : ‖w‖ ≤ 1) (n : ℕ) :
    ‖z ^ n - w ^ n‖ ≤ n * ‖z - w‖ := by
  induction n with
  | zero => simp
  | succ n ih =>
    have hsplit : z ^ (n + 1) - w ^ (n + 1) = z ^ n * (z - w) + (z ^ n - w ^ n) * w := by ring
    have hzn : ‖z ^ n‖ ≤ 1 := by
      rw [norm_pow]
      exact pow_le_one₀ (norm_nonneg z) hz
    calc ‖z ^ (n + 1) - w ^ (n + 1)‖
        ≤ ‖z ^ n * (z - w)‖ + ‖(z ^ n - w ^ n) * w‖ := hsplit ▸ norm_add_le _ _
      _ ≤ 1 * ‖z - w‖ + n * ‖z - w‖ * 1 := by
          rw [norm_mul, norm_mul]
          gcongr
      _ = (n + 1 : ℕ) * ‖z - w‖ := by push_cast; ring

/-! ## The base -/

/-- The real part of `exp i`, in units of `10 ^ -18`. -/
def cosOne : ℤ := 540302305868139717

/-- The imaginary part of `exp i`, in units of `10 ^ -18`. -/
def sinOne : ℤ := 841470984807896506

/-- The Taylor polynomial of `exp` at `i`. -/
theorem sum_range_I_pow : ∑ m ∈ Finset.range 20, I ^ m / (m.factorial : ℂ) =
    ((1 - 1 / 2 + 1 / 24 - 1 / 720 + 1 / 40320 - 1 / 3628800 + 1 / 479001600 - 1 / 87178291200 +
      1 / 20922789888000 - 1 / 6402373705728000 : ℝ) : ℂ) +
    ((1 - 1 / 6 + 1 / 120 - 1 / 5040 + 1 / 362880 - 1 / 39916800 + 1 / 6227020800 -
      1 / 1307674368000 + 1 / 355687428096000 - 1 / 121645100408832000 : ℝ) : ℂ) * I := by
  have hI3 : I ^ 3 = -I := by
    rw [pow_succ, I_sq]
    ring
  simp only [Finset.sum_range_succ, Finset.sum_range_zero, Nat.factorial]
  push_cast
  rw [I_sq, hI3]
  ring

theorem norm_exp_I_sub_le : ‖exp I - ((cosOne : ℂ) + sinOne * I) / 10 ^ 18‖ ≤ 1 / 10 ^ 15 := by
  -- The remainder of the series after twenty terms ...
  have htaylor := @exp_bound I (by rw [norm_I]) 20 (by norm_num)
  rw [norm_I, one_pow, one_mul] at htaylor
  -- ... and the distance of its polynomial from the rounded point.
  have hbase : ‖∑ m ∈ Finset.range 20, I ^ m / (m.factorial : ℂ) -
      ((cosOne : ℂ) + sinOne * I) / 10 ^ 18‖ ≤ 1 / 10 ^ 16 := by
    rw [sum_range_I_pow, cosOne, sinOne]
    refine (norm_le_abs_re_add_abs_im _).trans ?_
    norm_num
  have hrest : ((Nat.succ 20 : ℕ) : ℝ) * ((Nat.factorial 20 : ℝ) * (20 : ℕ))⁻¹ ≤ 1 / 10 ^ 16 := by
    norm_num [Nat.factorial]
  calc ‖exp I - ((cosOne : ℂ) + sinOne * I) / 10 ^ 18‖
      ≤ ‖exp I - ∑ m ∈ Finset.range 20, I ^ m / (m.factorial : ℂ)‖ +
        ‖∑ m ∈ Finset.range 20, I ^ m / (m.factorial : ℂ) -
          ((cosOne : ℂ) + sinOne * I) / 10 ^ 18‖ := norm_sub_le_norm_sub_add_norm_sub _ _ _
    _ ≤ 1 / 10 ^ 16 + 1 / 10 ^ 16 := add_le_add (htaylor.trans hrest) hbase
    _ ≤ 1 / 10 ^ 15 := by norm_num

theorem norm_base_le : ‖((cosOne : ℂ) + sinOne * I) / 10 ^ 18‖ ≤ 1 := by
  have hcast : ((cosOne : ℂ) + sinOne * I) / 10 ^ 18 =
      ((cosOne / 10 ^ 18 : ℝ) : ℂ) + ((sinOne / 10 ^ 18 : ℝ) : ℂ) * I := by
    push_cast
    ring
  rw [hcast, norm_add_mul_I, cosOne, sinOne]
  exact Real.sqrt_le_iff.mpr ⟨by norm_num, by norm_num⟩

/-! ## Sines -/

/-- **The sine of a natural number**, to fifteen digits. -/
theorem abs_sin_sub_le (n : ℕ) :
    |Real.sin n - (gaussPow cosOne sinOne n).2 / (10 ^ 18) ^ n| ≤ (n : ℝ) / 10 ^ 15 := by
  have hexp : ‖exp I‖ ≤ 1 := by
    have := norm_exp_ofReal_mul_I 1
    rw [ofReal_one, one_mul] at this
    exact this.le
  have hpow := (norm_pow_sub_pow_le hexp norm_base_le n).trans
    (mul_le_mul_of_nonneg_left norm_exp_I_sub_le n.cast_nonneg)
  -- The imaginary parts of the powers are the sine and its rational value.
  have him : (exp I ^ n - (((cosOne : ℂ) + sinOne * I) / 10 ^ 18) ^ n).im =
      Real.sin n - (gaussPow cosOne sinOne n).2 / (10 ^ 18) ^ n := by
    have hsin : (exp I ^ n).im = Real.sin n := by
      rw [← exp_nat_mul, ← exp_ofReal_mul_I_im, ofReal_natCast]
    have hgauss : (((cosOne : ℂ) + sinOne * I) / 10 ^ 18) ^ n =
        (((gaussPow cosOne sinOne n).1 / (10 ^ 18) ^ n : ℝ) : ℂ) +
          (((gaussPow cosOne sinOne n).2 / (10 ^ 18) ^ n : ℝ) : ℂ) * I := by
      rw [div_pow, ← gaussPow_cast]
      push_cast
      ring
    rw [sub_im, hsin, hgauss, add_im, ofReal_im, im_ofReal_mul, I_im, mul_one, zero_add]
  rw [← him]
  refine (abs_im_le_norm _).trans (hpow.trans_eq ?_)
  ring

/-! ## Integer parts -/

/-- The inequalities of integers that make `k` the integer part of `m * |sin n|`. -/
def Certified (m n k : ℕ) : Prop :=
  let q := (10 ^ 18) ^ n
  let p := (gaussPow cosOne sinOne n).2.natAbs
  k * q * 10 ^ 15 + m * n * q ≤ m * p * 10 ^ 15 ∧
    m * p * 10 ^ 15 + m * n * q < (k + 1) * q * 10 ^ 15

instance (m n k : ℕ) : Decidable (Certified m n k) := inferInstanceAs (Decidable (_ ∧ _))

/-- **The integer part of a multiple of a sine.** -/
theorem floor_mul_abs_sin {m n k : ℕ} (h : Certified m n k) :
    ⌊(m : ℝ) * |Real.sin n|⌋₊ = k := by
  obtain ⟨hlow, hhigh⟩ := h
  have hq : (0 : ℝ) < (10 ^ 18) ^ n := by positivity
  have hlow' : (k * (10 ^ 18) ^ n * 10 ^ 15 + m * n * (10 ^ 18) ^ n : ℝ) ≤
      m * (gaussPow cosOne sinOne n).2.natAbs * 10 ^ 15 := by exact_mod_cast hlow
  have hhigh' : (m * (gaussPow cosOne sinOne n).2.natAbs * 10 ^ 15 + m * n * (10 ^ 18) ^ n : ℝ) <
      (k + 1) * (10 ^ 18) ^ n * 10 ^ 15 := by exact_mod_cast hhigh
  -- The multiple of the sine is near the rational multiple ...
  have hnear : |(m * |Real.sin n| : ℝ) - m * (gaussPow cosOne sinOne n).2.natAbs / (10 ^ 18) ^ n| ≤
      (m * n / 10 ^ 15 : ℝ) := by
    have habs := (abs_abs_sub_abs_le (Real.sin n)
      ((gaussPow cosOne sinOne n).2 / (10 ^ 18) ^ n)).trans (abs_sin_sub_le n)
    rw [abs_div, abs_of_pos hq] at habs
    rw [Nat.cast_natAbs, Int.cast_abs, mul_div_assoc, ← mul_sub, abs_mul, Nat.abs_cast,
      mul_div_assoc]
    exact mul_le_mul_of_nonneg_left habs m.cast_nonneg
  generalize ((gaussPow cosOne sinOne n).2.natAbs : ℝ) = p at *
  obtain ⟨hnear₁, hnear₂⟩ := abs_le.mp hnear
  have hscale : (0 : ℝ) < 10 ^ 15 := by norm_num
  -- ... which the inequalities keep away from the integers on both sides.
  rw [Nat.floor_eq_iff (by positivity)]
  constructor
  · have hle : (k : ℝ) + m * n / 10 ^ 15 ≤ m * p / (10 ^ 18) ^ n := by
      rw [le_div_iff₀ hq, ← mul_le_mul_iff_left₀ hscale]
      calc ((k : ℝ) + m * n / 10 ^ 15) * (10 ^ 18) ^ n * 10 ^ 15
          = k * (10 ^ 18) ^ n * 10 ^ 15 + m * n * (10 ^ 18) ^ n := by ring
        _ ≤ m * p * 10 ^ 15 := hlow'
    linarith only [hnear₁, hle]
  · have hlt : m * p / (10 ^ 18) ^ n < (k : ℝ) + 1 - m * n / 10 ^ 15 := by
      rw [div_lt_iff₀ hq, ← mul_lt_mul_iff_left₀ hscale]
      calc (m : ℝ) * p * 10 ^ 15
          < (k + 1) * (10 ^ 18) ^ n * 10 ^ 15 - m * n * (10 ^ 18) ^ n :=
            lt_sub_iff_add_lt.mpr hhigh'
        _ = ((k : ℝ) + 1 - m * n / 10 ^ 15) * (10 ^ 18) ^ n * 10 ^ 15 := by ring
    linarith only [hnear₂, hlt]

end SineDigits
