import HyUtils.Fifo.Model
import HyUtils.Foundation.Ring
import HyUtils.Foundation.Words

/-!
# Well-formed fifos

The counters of a fifo run freely modulo `2 ^ 64`; its size is a power of two, so the masked
counters are the cursors of a circular buffer, and the unread bytes are a window of it.

## Main definitions

* `FifoContext.used`, `FifoContext.contents`: the number of unread bytes, and these bytes
* `FifoContext.Wf`: what the module keeps of a fifo

## Main results

* `FifoContext.Wf.toNat_index`: the mask is a remainder
* `createSize_of_le`, `createSize_eq`: the size a request is rounded to
* `hyFifoCreate_wf`: a created fifo is well formed and empty
-/

namespace HyUtils.Fifo

open Ring

/-! ## Macros -/

@[simp] theorem toNat_hyUtilsMinMacro (x y : UInt64) :
    (hyUtilsMinMacro x y).toNat = min x.toNat y.toNat := by
  unfold hyUtilsMinMacro
  split_ifs with h
  · exact (Nat.min_eq_left (UInt64.lt_iff_toNat_lt.mp h).le).symm
  · exact (Nat.min_eq_right (Nat.le_of_not_lt fun hlt => h (UInt64.lt_iff_toNat_lt.mpr hlt))).symm

/-! ## Well-formed fifos -/

/-- The number of unread bytes, from the two cursors. -/
def FifoContext.used (context : FifoContext) : ℕ := (context.in_ - context.out).toNat

theorem used_of_eq {context : FifoContext} (h : context.in_ = context.out) : context.used = 0 := by
  rw [FifoContext.used, h, UInt64.sub_self]
  rfl

/-- The unread bytes, oldest first. -/
def FifoContext.contents (context : FifoContext) : List UInt8 :=
  window context.buf context.out.toNat context.used

/-- A size that is a power of two, a buffer of that size, and cursors at most that far apart. A
request whose rounding overflows gives a fifo of size 0, whose cursors never move. -/
structure FifoContext.Wf (context : FifoContext) : Prop where
  size_eq : context.size.toNat = 0 ∨ ∃ k ≤ 31, context.size.toNat = 2 ^ k
  length_buf : context.buf.length = context.size.toNat
  used_le : context.used ≤ context.size.toNat
  cursors_of_size : context.size.toNat = 0 → context.in_ = 0 ∧ context.out = 0

namespace FifoContext.Wf

variable {context : FifoContext}

theorem size_le (h : context.Wf) : context.size.toNat ≤ 2 ^ 31 := by
  rcases h.size_eq with h0 | ⟨k, hk, hs⟩
  · omega
  · rw [hs]
    exact Nat.pow_le_pow_right (by decide) hk

theorem size_dvd (h : context.Wf) (hpos : 0 < context.size.toNat) :
    context.size.toNat ∣ 2 ^ 64 := by
  rcases h.size_eq with h0 | ⟨k, hk, hs⟩
  · omega
  · rw [hs]
    exact Nat.pow_dvd_pow 2 (by omega)

/-- **The mask is a remainder**: `x & (size - 1)` is the physical index of the cursor `x`. -/
theorem toNat_index (h : context.Wf) (x : UInt64) :
    (x &&& (context.size - 1)).toNat = x.toNat % context.size.toNat := by
  rw [UInt64.toNat_and]
  have hx := x.toNat_lt
  rcases h.size_eq with h0 | ⟨k, hk, hs⟩
  · -- the mask of a fifo of size 0 is all ones
    have hm : (context.size - 1).toNat = 2 ^ 64 - 1 := by
      rw [UInt64.toNat_sub, h0]
      rfl
    rw [hm, Nat.and_two_pow_sub_one_eq_mod, h0, Nat.mod_zero, Nat.mod_eq_of_lt hx]
  · have hm : (context.size - 1).toNat = 2 ^ k - 1 := by
      have hk' : 1 ≤ 2 ^ k := Nat.one_le_two_pow
      have hk'' : 2 ^ k ≤ 2 ^ 31 := Nat.pow_le_pow_right (by decide) hk
      rw [UInt64.toNat_sub, hs, show (1 : UInt64).toNat = 1 from rfl]
      omega
    rw [hm, Nat.and_two_pow_sub_one_eq_mod, hs]

/-- The write cursor is the read cursor moved over the unread bytes. -/
theorem in_eq (_ : context.Wf) :
    context.in_.toNat = (context.out.toNat + context.used) % 2 ^ 64 := by
  have hi := context.in_.toNat_lt
  have ho := context.out.toNat_lt
  rw [FifoContext.used, UInt64.toNat_sub]
  omega

theorem toNat_free (h : context.Wf) :
    (context.size - context.in_ + context.out).toNat = context.size.toNat - context.used := by
  have hu := h.used_le
  have hs := context.size.toNat_lt
  have hi := context.in_.toNat_lt
  have ho := context.out.toNat_lt
  rw [UInt64.toNat_add, UInt64.toNat_sub]
  rw [FifoContext.used, UInt64.toNat_sub] at hu ⊢
  omega

theorem index_in (h : context.Wf) (hpos : 0 < context.size.toNat) :
    context.in_.toNat % context.size.toNat =
      (context.out.toNat + context.used) % context.size.toNat := by
  rw [h.in_eq, Nat.mod_mod_of_dvd _ (h.size_dvd hpos)]

theorem toNat_size_sub_index (h : context.Wf) (hpos : 0 < context.size.toNat) (x : UInt64) :
    (context.size - (x &&& (context.size - 1))).toNat =
      context.size.toNat - x.toNat % context.size.toNat := by
  have hlt := Nat.mod_lt x.toNat hpos
  have hs := context.size.toNat_lt
  rw [UInt64.toNat_sub, h.toNat_index]
  omega

theorem length_contents (h : context.Wf) : context.contents.length = context.used :=
  length_window (by rw [h.length_buf]; exact h.used_le)

end FifoContext.Wf

/-! ## Creation -/

theorem isPowerOf2_iff (x : UInt64) : hyUtilsIsPowerOf2 x = true ↔ ∃ k, x.toNat = 2 ^ k := by
  have hx : x != 0 ↔ x.toNat ≠ 0 := by
    rw [bne_iff_ne, ne_eq, ← UInt64.toNat_inj]
    rfl
  have hsub : x.toNat ≠ 0 → (x - 1).toNat = x.toNat - 1 := by
    intro h
    have := x.toNat_lt
    rw [UInt64.toNat_sub, show (1 : UInt64).toNat = 1 from rfl]
    omega
  rw [hyUtilsIsPowerOf2, Bool.and_eq_true, hx, beq_iff_eq, ← UInt64.toNat_inj, UInt64.toNat_and]
  constructor
  · rintro ⟨h0, hand⟩
    rw [hsub h0] at hand
    exact (Nat.and_sub_one_eq_zero_iff_isPowerOfTwo h0).mp hand
  · rintro ⟨k, hk⟩
    have h0 : x.toNat ≠ 0 := by
      rw [hk]
      exact (Nat.two_pow_pos k).ne'
    refine ⟨h0, ?_⟩
    rw [hsub h0]
    exact (Nat.and_sub_one_eq_zero_iff_isPowerOfTwo h0).mpr ⟨k, hk⟩

theorem log2_eq_succ {n : ℕ} (h : 2 ≤ n) : Nat.log2 n = Nat.log2 (n / 2) + 1 := by
  rw [Nat.log2_def, if_pos h]

/-- The loop doubles `i` once for each bit of `num` above the lowest. -/
theorem toNat_numTo2N2Loop (fuel : ℕ) (num i : UInt32) (h : num.toNat < 2 ^ fuel) :
    (numTo2N2Loop fuel num i).toNat = i.toNat * 2 ^ Nat.log2 num.toNat % 2 ^ 32 := by
  induction fuel generalizing num i with
  | zero =>
    -- no bits left: the loop has ended
    have h0 : num.toNat = 0 := by omega
    have hi := i.toNat_lt
    simp [numTo2N2Loop, h0, Nat.mod_eq_of_lt hi]
  | succ fuel ih =>
    have hshift : (num >>> 1).toNat = num.toNat / 2 := by
      rw [UInt32.toNat_shiftRight]
      exact Nat.shiftRight_succ num.toNat 0
    have hdouble : (i <<< 1).toNat = i.toNat * 2 % 2 ^ 32 := by
      rw [UInt32.toNat_shiftLeft]
      exact congrArg (· % 2 ^ 32) (Nat.shiftLeft_eq _ 1)
    have hz : num >>> 1 = 0 ↔ num.toNat / 2 = 0 := by
      rw [← UInt32.toNat_inj, hshift]
      rfl
    simp only [numTo2N2Loop, ne_eq, ite_not]
    split_ifs with h0
    · -- one bit left
      have hlog : Nat.log2 num.toNat = 0 := by
        rw [Nat.log2_def, if_neg (by have := hz.mp h0; omega)]
      rw [hlog, Nat.pow_zero, Nat.mul_one, Nat.mod_eq_of_lt i.toNat_lt]
    · -- a bit is shifted out, and `i` doubles
      have h2 : 2 ≤ num.toNat := by
        have hne : num.toNat / 2 ≠ 0 := fun hn => h0 (hz.mpr hn)
        omega
      have hpow : 2 ^ (fuel + 1) = 2 * 2 ^ fuel := Nat.pow_succ'
      have hpow' : 2 ^ (Nat.log2 (num.toNat / 2) + 1) = 2 * 2 ^ Nat.log2 (num.toNat / 2) :=
        Nat.pow_succ'
      rw [ih (num >>> 1) (i <<< 1) (by omega), hshift, hdouble, log2_eq_succ h2, hpow',
        Nat.mod_mul_mod, Nat.mul_assoc]

/-- **Rounding up**: the least power of two that is at least `num`, when there is one. -/
theorem hyUtilsNumTo2N2_spec {num : UInt32} (hpos : 0 < num.toNat) (hle : num.toNat ≤ 2 ^ 31) :
    ∃ k ≤ 31, (hyUtilsNumTo2N2 num).toNat = 2 ^ k ∧ num.toNat ≤ 2 ^ k ∧ 2 ^ k < 2 * num.toNat := by
  have hlog : 2 ^ Nat.log2 num.toNat ≤ num.toNat := Nat.log2_self_le hpos.ne'
  have hlog' : num.toNat < 2 ^ (Nat.log2 num.toNat + 1) := Nat.lt_log2_self
  have hl31 : Nat.log2 num.toNat ≤ 31 :=
    (Nat.pow_le_pow_iff_right (by decide)).mp (hlog.trans hle)
  have hi : (numTo2N2Loop 32 num 1).toNat = 2 ^ Nat.log2 num.toNat := by
    rw [toNat_numTo2N2Loop _ _ _ num.toNat_lt, show (1 : UInt32).toNat = 1 from rfl, Nat.one_mul,
      Nat.mod_eq_of_lt (by omega)]
  simp only [hyUtilsNumTo2N2, UInt32.lt_iff_toNat_lt, hi]
  split_ifs with hlt
  · -- the bits below the highest are not all zero: one doubling more
    have hl30 : Nat.log2 num.toNat + 1 ≤ 31 := by
      have := (Nat.pow_lt_pow_iff_right (by decide)).mp (hlt.trans_le hle)
      omega
    refine ⟨Nat.log2 num.toNat + 1, hl30, ?_, hlog'.le, by rw [Nat.pow_succ]; omega⟩
    have hpow : 2 ^ (Nat.log2 num.toNat + 1) ≤ 2 ^ 31 := Nat.pow_le_pow_right (by decide) hl30
    rw [UInt32.toNat_shiftLeft, hi]
    change (2 ^ Nat.log2 num.toNat) <<< 1 % 2 ^ 32 = _
    rw [Nat.shiftLeft_eq, Nat.pow_one, ← Nat.pow_succ, Nat.mod_eq_of_lt (by omega)]
  · exact ⟨_, hl31, hi, by omega, by omega⟩

/-- A number above the largest power of two rounds to 0: the doubling overflows. -/
theorem hyUtilsNumTo2N2_of_lt {num : UInt32} (h : 2 ^ 31 < num.toNat) :
    hyUtilsNumTo2N2 num = 0 := by
  have hlt := num.toNat_lt
  have hlog : Nat.log2 num.toNat = 31 := (Nat.log2_eq_iff (by omega)).mpr ⟨by omega, by omega⟩
  have hi : (numTo2N2Loop 32 num 1).toNat = 2 ^ 31 := by
    rw [toNat_numTo2N2Loop _ _ _ num.toNat_lt, hlog]
    rfl
  have hi' : numTo2N2Loop 32 num 1 = 0x80000000 := UInt32.toNat_inj.mp hi
  simp only [hyUtilsNumTo2N2, UInt32.lt_iff_toNat_lt, hi']
  rw [if_pos (show UInt32.toNat 0x80000000 < num.toNat from h)]
  rfl

theorem hyUtilsNumTo2N2_zero : hyUtilsNumTo2N2 0 = 1 := by decide

theorem createSize_of_pow {size : UInt64} (hp : hyUtilsIsPowerOf2 size = true)
    (hle : size.toNat ≤ 2 ^ 31) : createSize size = size := by
  have hng : ¬ size > 0x80000000 := fun h =>
    absurd (UInt64.lt_iff_toNat_lt.mp h) (by
      change ¬ 2 ^ 31 < size.toNat
      omega)
  simp [createSize, hp, hng]

theorem createSize_of_not {size : UInt64}
    (h : ¬ (hyUtilsIsPowerOf2 size = true ∧ size.toNat ≤ 2 ^ 31)) :
    createSize size = (hyUtilsNumTo2N2 size.toUInt32).toUInt64 := by
  have hc : (!hyUtilsIsPowerOf2 size || decide (size > 0x80000000)) = true := by
    rw [Bool.or_eq_true, Bool.not_eq_true', decide_eq_true_eq]
    by_contra hcon
    rw [not_or, Bool.not_eq_false] at hcon
    refine h ⟨hcon.1, Nat.le_of_not_lt fun hlt => hcon.2 (UInt64.lt_iff_toNat_lt.mpr hlt)⟩
  rw [createSize, if_pos hc]

/-- **A request of at most `2 ^ 31`** gives the least power of two that is at least it. -/
theorem createSize_of_le {size : UInt64} (hle : size.toNat ≤ 2 ^ 31) :
    ∃ k ≤ 31, (createSize size).toNat = 2 ^ k ∧ size.toNat ≤ 2 ^ k ∧
      (0 < size.toNat → 2 ^ k < 2 * size.toNat) := by
  by_cases hp : hyUtilsIsPowerOf2 size = true
  · rw [createSize_of_pow hp hle]
    obtain ⟨k, hk⟩ := (isPowerOf2_iff size).mp hp
    exact ⟨k, (Nat.pow_le_pow_iff_right (by decide)).mp (hk ▸ hle), hk, hk.le, by omega⟩
  · have hn : size.toUInt32.toNat = size.toNat := by
      rw [UInt64.toNat_toUInt32, Nat.mod_eq_of_lt (by omega)]
    rw [createSize_of_not fun h => hp h.1, UInt32.toNat_toUInt64]
    -- a request of 0 is rounded to 1
    rcases Nat.eq_zero_or_pos size.toNat with h0 | hpos
    · have hz : size.toUInt32 = 0 := UInt32.toNat_inj.mp (by rw [hn, h0]; rfl)
      rw [hz, hyUtilsNumTo2N2_zero]
      exact ⟨0, by omega, rfl, by omega, by omega⟩
    · obtain ⟨k, hk, he, hl, hu⟩ := hyUtilsNumTo2N2_spec (by omega : 0 < size.toUInt32.toNat)
        (by omega)
      exact ⟨k, hk, he, by omega, fun _ => by omega⟩

/-- Whatever is requested, the size is a power of two that fits, or 0. -/
theorem createSize_eq (size : UInt64) :
    (createSize size).toNat = 0 ∨ ∃ k ≤ 31, (createSize size).toNat = 2 ^ k := by
  by_cases h : hyUtilsIsPowerOf2 size = true ∧ size.toNat ≤ 2 ^ 31
  · obtain ⟨k, hk, he, -⟩ := createSize_of_le h.2
    exact .inr ⟨k, hk, he⟩
  · -- the request is truncated to 32 bits before it is rounded
    rw [createSize_of_not h, UInt32.toNat_toUInt64]
    rcases Nat.eq_zero_or_pos size.toUInt32.toNat with h0 | hpos
    · have hz : size.toUInt32 = 0 := UInt32.toNat_inj.mp h0
      rw [hz, hyUtilsNumTo2N2_zero]
      exact .inr ⟨0, by omega, rfl⟩
    · rcases Nat.lt_or_ge (2 ^ 31) size.toUInt32.toNat with hlt | hle
      · rw [hyUtilsNumTo2N2_of_lt hlt]
        exact .inl rfl
      · obtain ⟨k, hk, he, -⟩ := hyUtilsNumTo2N2_spec hpos hle
        exact .inr ⟨k, hk, he⟩

/-- A created fifo is well formed and empty. -/
theorem hyFifoCreate_wf {config : HyFifoConfig} {contextOk bufOk : Bool} {context : FifoContext}
    (h : hyFifoCreate config contextOk bufOk = some context) :
    context.Wf ∧ context.size = createSize config.size ∧ context.contents = [] ∧
      context.useCnt = 0 ∧ context.in_ = 0 ∧ context.out = 0 := by
  unfold hyFifoCreate at h
  split_ifs at h
  obtain rfl := Option.some.inj h
  refine ⟨⟨createSize_eq _, List.length_replicate, ?_, fun _ => ⟨rfl, rfl⟩⟩, rfl, ?_, rfl, rfl, rfl⟩
  · rw [used_of_eq rfl]
    exact Nat.zero_le _
  · rw [FifoContext.contents, used_of_eq rfl, window_zero]

end HyUtils.Fifo
