import Mathlib.Algebra.Order.Ring.Nat

/-!
# Machine words

The values of fixed-width words under the operations that C programs assemble and take apart
numbers with.

## Main results

* `toNat_ofNat_of_lt`, `eq_ofNat_of_toNat`: words and their values
* `toNat_shiftRight_of_lt`, `toNat_byte_shiftLeft`: shifts that lose no bits they should keep
* `toInt_add_one`, `add_one_lt`: counting up without overflow
* `toNat_and_sub_one_lt`, `toNat_le_and_not_add`: masks
* `or_shiftLeft_eq_add`: a digit or'ed in above a number
-/

namespace Words

theorem toNat_ofNat_of_lt {n : ℕ} (h : n < 2 ^ 64) : (UInt64.ofNat n).toNat = n :=
  UInt64.toNat_ofNat_of_lt' h

theorem ofNat_ne_zero {n : ℕ} (hpos : 0 < n) (h : n < 2 ^ 64) : UInt64.ofNat n ≠ 0 := by
  intro h0
  have hn := toNat_ofNat_of_lt h
  rw [h0] at hn
  exact hpos.ne hn

/-- Equality of machine words is equality of their values. -/
theorem eq_ofNat_of_toNat {x : UInt64} {n : ℕ} (h : x.toNat = n) : x = UInt64.ofNat n := by
  rw [← h, UInt64.ofNat_toNat]

theorem sub_one_eq_zero {x : UInt8} : x - 1 = 0 ↔ x = 1 := by
  rw [UInt8.sub_eq_iff_eq_add, UInt8.zero_add]

theorem toNat_sub_one {x : UInt8} (h : x ≠ 0) : (x - 1).toNat + 1 = x.toNat := by
  have hpos : 0 < x.toNat := Nat.pos_of_ne_zero fun h0 => h (UInt8.toNat_inj.mp h0)
  have hle : (1 : UInt8) ≤ x := UInt8.le_iff_toNat_le.mpr hpos
  rw [UInt8.toNat_sub_of_le _ _ hle]
  exact Nat.sub_add_cancel hpos

theorem toNat_shiftRight_of_lt {x s : UInt32} (h : s.toNat < 32) :
    (x >>> s).toNat = x.toNat / 2 ^ s.toNat := by
  rw [UInt32.toNat_shiftRight, Nat.mod_eq_of_lt h, Nat.shiftRight_eq_div_pow]

/-- A byte shifted within a word. -/
theorem toNat_byte_shiftLeft {b : UInt8} {s : UInt32} (h : s.toNat ≤ 24) :
    (b.toUInt32 <<< s).toNat = b.toNat <<< s.toNat := by
  have hfit : b.toNat <<< s.toNat < 2 ^ 32 := by
    rw [Nat.shiftLeft_eq]
    calc b.toNat * 2 ^ s.toNat
        ≤ (2 ^ 8 - 1) * 2 ^ 24 := Nat.mul_le_mul (Nat.le_pred_of_lt b.toNat_lt)
          (Nat.pow_le_pow_right (by decide) h)
      _ < 2 ^ 32 := by decide
  rw [UInt32.toNat_shiftLeft, UInt8.toNat_toUInt32, Nat.mod_eq_of_lt (h.trans_lt (by decide)),
    Nat.mod_eq_of_lt hfit]

theorem toInt_ofNat_le (n : ℕ) : (Int32.ofNat n).toInt ≤ n := by
  rw [Int32.toInt_ofNat', Int.bmod_def, Int32.size]
  split_ifs <;> omega

theorem toInt_add_one {a : Int32} (h : a.toInt + 1 < 2 ^ 31) : (a + 1).toInt = a.toInt + 1 := by
  have hlow := a.le_toInt
  rw [Int32.toInt_add, Int32.toInt_one]
  apply Int.bmod_eq_of_le <;> omega

/-- A count below a bound stays below it until it meets it. -/
theorem add_one_lt {a b : Int32} (h : a < b) (hne : a + 1 ≠ b) : a + 1 < b := by
  rw [Int32.lt_iff_toInt_lt] at h ⊢
  have hb := b.toInt_lt
  have hadd : (a + 1).toInt = a.toInt + 1 := toInt_add_one (by omega)
  have hne' : (a + 1).toInt ≠ b.toInt := fun he => hne (Int32.toInt_inj.mp he)
  omega

/-- A count from which no more than one too much is taken does not wrap around. -/
theorem toInt_sub_ofNat {a : Int32} {k : ℕ} (h : (k : ℤ) ≤ a.toInt + 1) :
    (a - Int32.ofNat k).toInt = a.toInt - k := by
  have hhigh := a.toInt_lt
  rw [Int32.toInt_sub, Int32.toInt_ofNat', Int32.size, Int.sub_bmod_bmod]
  apply Int.bmod_eq_of_le <;> omega

theorem toInt_sub_one {a : Int32} (h : 1 ≤ a) : (a - 1).toInt = a.toInt - 1 := by
  have hlow : 1 ≤ a.toInt := by simpa [Int32.le_iff_toInt_le] using h
  have hhigh := a.toInt_lt
  rw [Int32.toInt_sub, Int32.toInt_one]
  apply Int.bmod_eq_of_le <;> omega

/-- A word masked with one less than a count is below the count. -/
theorem toNat_and_sub_one_lt {a b : Int32} (h : 1 ≤ b) :
    (a &&& (b - 1)).toUInt32.toNat < b.toInt.toNat := by
  have hlow : 1 ≤ b.toInt := by simpa [Int32.le_iff_toInt_le] using h
  have hsub := toInt_sub_one h
  have hnonneg : 0 ≤ b - 1 := by
    rw [Int32.le_iff_toInt_le, hsub, Int32.toInt_zero]
    omega
  have hmask : (b - 1).toUInt32.toNat = (b - 1).toInt.toNat := Int32.toNat_toUInt32_of_le hnonneg
  have hle : (a &&& (b - 1)).toUInt32.toNat ≤ (b - 1).toUInt32.toNat := by
    rw [Int32.toUInt32_and, UInt32.toNat_and]
    exact Nat.and_le_right
  omega

/-- A word whose bits count to less than a count is between zero and the count. -/
theorem nonneg_and_lt_of_toNat_lt {x b : Int32} (h : x.toUInt32.toNat < b.toInt.toNat) :
    0 ≤ x ∧ x < b := by
  have hb := b.toInt_lt
  have hsmall : 2 * x.toBitVec.toNat < 2 ^ 32 := by
    change 2 * x.toUInt32.toNat < 2 ^ 32
    omega
  have hx : x.toInt = x.toUInt32.toNat := BitVec.toInt_eq_toNat_of_lt hsmall
  constructor
  · rw [Int32.le_iff_toInt_le, Int32.toInt_zero, hx]
    exact Int.natCast_nonneg _
  · rw [Int32.lt_iff_toInt_lt, hx]
    omega

/-- The bits under a mask and the others make up the word. -/
theorem and_not_add_and (x y : UInt32) : (x &&& ~~~y) + (x &&& y) = x := by
  apply UInt32.toBitVec_inj.mp
  rw [UInt32.toBitVec_add, UInt32.toBitVec_and, UInt32.toBitVec_and, UInt32.toBitVec_not,
    BitVec.add_eq_or_of_and_eq_zero]
  · ext i hi
    simp only [BitVec.getElem_or, BitVec.getElem_and, BitVec.getElem_not]
    cases x.toBitVec[i] <;> cases y.toBitVec[i] <;> rfl
  · ext i hi
    simp only [BitVec.getElem_and, BitVec.getElem_not, BitVec.getElem_zero]
    cases x.toBitVec[i] <;> cases y.toBitVec[i] <;> rfl

/-- Masking takes away no more than the mask. -/
theorem toNat_le_and_not_add (x y : UInt32) : x.toNat ≤ (x &&& ~~~y).toNat + y.toNat := by
  have hsum := congrArg UInt32.toNat (and_not_add_and x y)
  have hle : (x &&& y).toNat ≤ y.toNat := by
    rw [UInt32.toNat_and]
    exact Nat.and_le_right
  rw [UInt32.toNat_add] at hsum
  have hmod := Nat.mod_le ((x &&& ~~~y).toNat + (x &&& y).toNat) (2 ^ 32)
  omega

/-- A digit or'ed in above a number is added to it. -/
theorem or_shiftLeft_eq_add {m k : ℕ} (h : m < 2 ^ k) (n : ℕ) : m ||| n <<< k = m + n * 2 ^ k := by
  rw [Nat.or_comm, ← Nat.shiftLeft_add_eq_or_of_lt h, Nat.shiftLeft_eq, Nat.add_comm]

end Words
