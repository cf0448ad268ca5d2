import Mathlib.Algebra.Group.Nat.Defs
import Mathlib.Tactic.Ring

/-!
# Little-endian digits

Numbers as lists of bytes, low byte first: the memory layout of a fixed-width integer on a
little-endian host, and the byte order of message digests that use it.

## Main definitions

* `leBytes k n`: the `k` low bytes of `n`
* `ofLeBytes bs`: the number of a list of bytes

## Main results

* `ofLeBytes_leBytes`: the two are inverse, up to the width
* `leBytes_append`: the bytes of a double word are those of its halves
-/

namespace LittleEndian

/-- The `k` low bytes of `n`, low byte first. -/
def leBytes : ℕ → ℕ → List UInt8
  | 0, _ => []
  | k + 1, n => UInt8.ofNat n :: leBytes k (n / 256)

/-- The number whose bytes are given, low byte first. -/
def ofLeBytes : List UInt8 → ℕ
  | [] => 0
  | b :: bs => b.toNat + 256 * ofLeBytes bs

@[simp] theorem length_leBytes (k n : ℕ) : (leBytes k n).length = k := by
  induction k generalizing n with
  | zero => rfl
  | succ k ih => rw [leBytes, List.length_cons, ih]

theorem toNat_ofNat_uint8 (n : ℕ) : (UInt8.ofNat n).toNat = n % 256 := UInt8.toNat_ofNat'

theorem ofLeBytes_leBytes (k n : ℕ) : ofLeBytes (leBytes k n) = n % 256 ^ k := by
  induction k generalizing n with
  | zero => rw [pow_zero, Nat.mod_one]; rfl
  | succ k ih =>
    rw [leBytes, ofLeBytes, ih, toNat_ofNat_uint8, pow_succ', Nat.mod_mul]

theorem ofLeBytes_lt (bs : List UInt8) : ofLeBytes bs < 256 ^ bs.length := by
  induction bs with
  | nil => exact Nat.one_pos
  | cons b bs ih =>
    have hb := b.toNat_lt
    rw [ofLeBytes, List.length_cons, pow_succ']
    omega

/-- Only the low bytes matter. -/
theorem leBytes_mod (k n : ℕ) : leBytes k (n % 256 ^ k) = leBytes k n := by
  induction k generalizing n with
  | zero => rfl
  | succ k ih =>
    have hlow : UInt8.ofNat (n % 256 ^ (k + 1)) = UInt8.ofNat n := by
      apply UInt8.toNat_inj.mp
      rw [toNat_ofNat_uint8, toNat_ofNat_uint8, pow_succ', Nat.mod_mul_right_mod]
    -- the low byte is the same, and the rest is the same number divided
    rw [leBytes, leBytes, hlow, pow_succ', Nat.mod_mul_right_div_self, ih]

/-- The bytes of a long number are its low bytes and then its high bytes. -/
theorem leBytes_append (j k n : ℕ) :
    leBytes (j + k) n = leBytes j n ++ leBytes k (n / 256 ^ j) := by
  induction j generalizing n with
  | zero => rw [Nat.zero_add, pow_zero, Nat.div_one]; rfl
  | succ j ih =>
    rw [show j + 1 + k = (j + k) + 1 by ring, leBytes, leBytes, ih, List.cons_append,
      Nat.div_div_eq_div_mul, ← pow_succ']

end LittleEndian
