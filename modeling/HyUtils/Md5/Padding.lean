import HyUtils.Foundation.Words
import HyUtils.Md5.Model
import HyUtils.Md5.Spec

/-!
# The padded buffer

The buffer that `HyMd5sum` prepares is the padded message of the specification. The length search
of the source stops after the least number of zero bytes, and the two 32-bit halves that the source
writes are the halves of the length in bits.

## Main results

* `newLenLoop_eq`: the length search
* `toBytes_eq`: `to_bytes` writes the little-endian bytes of a word
* `prepare_eq_padded`: the prepared buffer
-/

namespace HyUtils.Md5

open LittleEndian Region Words

/-! ## The number of zero bytes -/

theorem padZeros_spec (n : ℕ) : (n + 1 + padZeros n) % 64 = 56 := Nat.find_spec (exists_padZeros n)

theorem padZeros_min {n z : ℕ} (h : z < padZeros n) : (n + 1 + z) % 64 ≠ 56 :=
  Nat.find_min (exists_padZeros n) h

theorem padZeros_lt (n : ℕ) : padZeros n < 64 := by
  have hle : padZeros n ≤ (119 - n % 64) % 64 := Nat.find_min' (exists_padZeros n) (by omega)
  omega

theorem length_padded (message : List UInt8) :
    (padded message).length = message.length + 1 + padZeros message.length + 8 := by
  simp only [padded, List.length_append, List.length_singleton, List.length_replicate,
    length_leBytes]

/-! ## The length search -/

/-- The search stops at the first length that is 56 modulo 64. -/
theorem newLenLoop_eq {fuel m z : ℕ} (hfuel : z ≤ fuel) (hm : m + z < 2 ^ 64)
    (hstop : (m + z) % 64 = 56) (hmin : ∀ z' < z, (m + z') % 64 ≠ 56) :
    newLenLoop fuel (UInt64.ofNat m) = UInt64.ofNat (m + z) := by
  induction fuel generalizing m z with
  | zero =>
    obtain rfl : z = 0 := by omega
    rfl
  | succ fuel ih =>
    have htest : UInt64.ofNat m % 64 = 56 ↔ m % 64 = 56 := by
      rw [← UInt64.toNat_inj, UInt64.toNat_mod, toNat_ofNat_of_lt (by omega)]
      rfl
    rw [newLenLoop]
    cases z with
    | zero =>
      -- the search stops here
      rw [if_neg (by simpa [htest] using hstop), Nat.add_zero]
    | succ z =>
      -- the search goes on from the next length, with one zero byte less to find
      have hnext : UInt64.ofNat m + 1 = UInt64.ofNat (m + 1) := (UInt64.ofNat_add m 1).symm
      rw [if_pos (mt htest.mp (hmin 0 (by omega))), hnext,
        ih (z := z) (by omega) (by omega) (by rwa [add_right_comm]) fun z' hz' => ?_]
      · rw [Nat.add_right_comm, Nat.add_assoc]
      · have := hmin (z' + 1) (by omega)
        rwa [show m + 1 + z' = m + (z' + 1) by omega]

/-! ## Words as bytes -/

/-- `to_bytes` writes the little-endian bytes of a word. -/
theorem toBytes_eq (val : UInt32) : toBytes val = leBytes 4 val.toNat := by
  have hbyte (w : UInt32) : w.toUInt8 = UInt8.ofNat w.toNat := by
    rw [← UInt8.toNat_inj, toNat_ofNat_uint8, UInt32.toNat_toUInt8]
  simp only [toBytes, leBytes, hbyte, Nat.div_div_eq_div_mul]
  rw [toNat_shiftRight_of_lt (by decide), toNat_shiftRight_of_lt (by decide),
    toNat_shiftRight_of_lt (by decide)]
  rfl

theorem toBytes_low {n : ℕ} (h : n < 2 ^ 61) :
    toBytes (UInt64.ofNat n * 8).toUInt32 = leBytes 4 (8 * n) := by
  -- The length in bits fits 64 bits; its low half is what is left of it in 32.
  have hval : (UInt64.ofNat n * 8).toUInt32.toNat = 8 * n % 256 ^ 4 := by
    rw [UInt64.toNat_toUInt32, UInt64.toNat_mul, toNat_ofNat_of_lt (by omega)]
    change n * 8 % 2 ^ 64 % 2 ^ 32 = 8 * n % 256 ^ 4
    omega
  rw [toBytes_eq, hval, leBytes_mod]

theorem toBytes_high {n : ℕ} (h : n < 2 ^ 61) :
    toBytes (UInt64.ofNat n >>> 29).toUInt32 = leBytes 4 (8 * n / 256 ^ 4) := by
  -- Shifting the length in bytes by 29 is shifting the length in bits by 32.
  have hval : (UInt64.ofNat n >>> 29).toUInt32.toNat = 8 * n / 256 ^ 4 := by
    rw [UInt64.toNat_toUInt32, UInt64.toNat_shiftRight, toNat_ofNat_of_lt (by omega)]
    change n >>> 29 % 2 ^ 32 = 8 * n / 256 ^ 4
    rw [Nat.shiftRight_eq_div_pow]
    omega
  rw [toBytes_eq, hval]

/-! ## The buffer -/

section Writes

variable (message : List UInt8) (z : ℕ)

theorem memcpy_message : memcpy (List.replicate (message.length + (1 + (z + 8))) 0) 0 message 0
    message.length = some (message ++ List.replicate (1 + (z + 8)) 0) := by
  rw [memcpy_eq_store (by omega), List.drop_zero, List.take_length, store_start (by simp),
    List.drop_replicate, Nat.add_sub_cancel_left]

theorem store_mark : store (message ++ List.replicate (1 + (z + 8)) 0) message.length [0x80] =
    some (message ++ [0x80] ++ List.replicate (z + 8) 0) := by
  rw [List.replicate_add 1, ← List.append_assoc]
  exact store_middle rfl rfl

/-- The zero bytes are there already. -/
theorem foldlM_zeros : (List.range' (message.length + 1) z).foldlM
    (fun msg offset => store msg offset [0]) (message ++ [0x80] ++ List.replicate (z + 8) 0) =
      some (message ++ [0x80] ++ List.replicate (z + 8) 0) := by
  refine foldlM_store_same fun off hmem => ?_
  obtain ⟨hlow, hhigh⟩ := List.mem_range'_1.mp hmem
  have hlen : (message ++ [0x80]).length = message.length + 1 := List.length_append
  rw [List.getElem?_append_right (by omega), List.getElem?_replicate, if_pos (by omega)]

theorem store_low : store (message ++ [0x80] ++ List.replicate (z + 8) 0) (message.length + 1 + z)
    (leBytes 4 (8 * message.length)) = some (message ++ [0x80] ++ List.replicate z 0 ++
      leBytes 4 (8 * message.length) ++ List.replicate 4 0) := by
  rw [List.replicate_add z, show 8 = 4 + 4 from rfl, List.replicate_add 4, ← List.append_assoc,
    ← List.append_assoc]
  refine store_middle ?_ (by rw [length_leBytes, List.length_replicate])
  simp only [List.length_append, List.length_singleton, List.length_replicate]

theorem store_high : store (message ++ [0x80] ++ List.replicate (padZeros message.length) 0 ++
    leBytes 4 (8 * message.length) ++ List.replicate 4 0)
      (message.length + 1 + padZeros message.length + 4)
        (leBytes 4 (8 * message.length / 256 ^ 4)) = some (padded message) := by
  have hpadded : padded message = message ++ [0x80] ++
      List.replicate (padZeros message.length) 0 ++ leBytes 4 (8 * message.length) ++
        leBytes 4 (8 * message.length / 256 ^ 4) ++ [] := by
    rw [padded, List.append_nil, List.append_assoc _ (leBytes 4 _), ← leBytes_append]
  rw [hpadded, ← List.append_nil (_ ++ List.replicate 4 0)]
  refine store_middle ?_ (by rw [length_leBytes, List.length_replicate])
  simp only [List.length_append, List.length_singleton, List.length_replicate, length_leBytes]

end Writes

/-- **The prepared buffer** is the padded message. -/
theorem prepare_eq_padded {message : List UInt8} (h : message.length < 2 ^ 61) :
    prepare message (UInt64.ofNat message.length) = some (padded message,
      UInt64.ofNat (message.length + 1 + padZeros message.length)) := by
  -- No sum of lengths wraps.
  have hz := padZeros_lt message.length
  have hsucc : UInt64.ofNat message.length + 1 = UInt64.ofNat (message.length + 1) :=
    (UInt64.ofNat_add _ 1).symm
  have hnewLen : newLenLoop 64 (UInt64.ofNat message.length + 1) =
      UInt64.ofNat (message.length + 1 + padZeros message.length) := by
    rw [hsucc]
    exact newLenLoop_eq hz.le (by omega) (padZeros_spec _) fun _ => padZeros_min
  have hsize : (UInt64.ofNat (message.length + 1 + padZeros message.length) + 8).toNat =
      message.length + (1 + (padZeros message.length + 8)) := by
    rw [show UInt64.ofNat (message.length + 1 + padZeros message.length) + 8 =
      UInt64.ofNat (message.length + 1 + padZeros message.length + 8) from
        (UInt64.ofNat_add _ 8).symm, toNat_ofNat_of_lt (by omega)]
    omega
  have hstart : (UInt64.ofNat message.length + 1).toNat = message.length + 1 := by
    rw [hsucc, toNat_ofNat_of_lt (by omega)]
  simp only [prepare, hnewLen, hsize, hstart, toBytes_low h, toBytes_high h,
    toNat_ofNat_of_lt (show message.length < 2 ^ 64 by omega),
    toNat_ofNat_of_lt (show message.length + 1 + padZeros message.length < 2 ^ 64 by omega),
    show message.length + 1 + padZeros message.length - (message.length + 1) =
      padZeros message.length by omega]
  -- The five writes, one after the other.
  simp only [memcpy_message, store_mark, foldlM_zeros, store_low, store_high, Option.bind_eq_bind,
    Option.bind_some, Option.pure_def]

end HyUtils.Md5
