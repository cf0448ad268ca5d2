import HyUtils.Foundation.Traced
import HyUtils.Foundation.Words
import HyUtils.Sort.Bubble
import HyUtils.Sort.Failures

/-!
# The offsets the sorts compute

The loops of `HySortBubble` with the lengths of type `size_t` as 64 bits, and `_partition` with
32-bit offsets, together with what they address. With a counter of 32 bits against a length of 64,
and offsets that are multiplied in 32 bits, the arithmetic is exact for small arrays only.

## Main definitions

* `bubbleInner64`, `bubbleOuter64`, `hySortBubble64`: the loops, with the offsets of their rounds
* `partitionSeen`: `_partition`, with the indexes it addresses
* `BubbleExact`, `QuickExact`: the arithmetic of the two sorts is that of the integers

## Main results

* `result_hySortBubble64`, `result_partitionSeen`: without the trace these are the functions
* `bubbleExact_iff`, `quickExact_iff`, `sorts_exact_iff`: when the arithmetic is exact
-/

namespace HyUtils.Sort

open Region Words

variable {σ : Type}

/-! ## Bubble sort, with its offsets -/

/-- A round of the inner loop of `HySortBubble`: its counter, and the offsets it computes. -/
structure BubbleRound where
  j : UInt32
  src : UInt64
  dst : UInt64

/-- The offsets `item_len * j` and `item_len * (j + 1)`, as `size_t`. -/
def bubbleRound (itemLen : UInt64) (j : UInt32) : BubbleRound :=
  ⟨j, itemLen * j.toUInt64, itemLen * (j + 1).toUInt64⟩

/-- The body of the inner loop: the two items are compared, and exchanged. -/
def compareItems (swapCb : HySortSwapCb σ) (itemLen : ℕ) (src dst : ℕ) (s : List UInt8 × σ) :
    Except Stop (List UInt8 × σ) := do
  let x ← access (load s.1 src itemLen)
  let y ← access (load s.1 dst itemLen)
  let (c, cb) := swapCb s.2 x y
  let array ← if c > 0 then access (memSwap s.1 dst src (UInt32.ofNat itemLen)) else .ok s.1
  return (array, cb)

/-- The inner loop of `HySortBubble`, up to `len - i`, from `j` on. -/
def bubbleInner64 (swapCb : HySortSwapCb σ) (itemLen bound : UInt64) :
    ℕ → UInt32 → List UInt8 × σ → Traced BubbleRound Stop (List UInt8 × σ)
  | 0, _, _ => .lift (.error .rounds)
  | fuel + 1, j, s =>
    if (j + 1).toUInt64 < bound then do
      let r := bubbleRound itemLen j
      .note r
      let s ← .lift (compareItems swapCb itemLen.toNat r.src.toNat r.dst.toNat s)
      bubbleInner64 swapCb itemLen bound fuel (j + 1) s
    else pure s

/-- The outer loop of `HySortBubble`, from `i` on. -/
def bubbleOuter64 (swapCb : HySortSwapCb σ) (len itemLen : UInt64) (fuel : ℕ) :
    ℕ → UInt32 → List UInt8 × σ → Traced BubbleRound Stop (List UInt8 × σ)
  | 0, _, _ => .lift (.error .rounds)
  | rounds + 1, i, s =>
    if i.toUInt64 < len then do
      let s ← bubbleInner64 swapCb itemLen (len - i.toUInt64) fuel 0 s
      bubbleOuter64 swapCb len itemLen fuel rounds (i + 1) s
    else pure s

/-- `HySortBubble`, with `tmp` allocated. -/
def hySortBubble64 (swapCb : HySortSwapCb σ) (fuel : ℕ) (array : List UInt8) (cb : σ)
    (len itemLen : UInt64) : Traced BubbleRound Stop (List UInt8 × σ) :=
  if len = 0 ∨ itemLen = 0 then pure (array, cb)
  else bubbleOuter64 swapCb len itemLen fuel fuel 0 (array, cb)

/-- The offsets of a round are those of the items `j` and `j + 1`. -/
def BubbleRound.Exact (itemLen : UInt64) (r : BubbleRound) : Prop :=
  r.src.toNat = itemLen.toNat * r.j.toNat ∧ r.dst.toNat = itemLen.toNat * (r.j.toNat + 1)

/-- Whatever the array that holds the items and the comparison function, the loops end, and every
round computes the offsets of its items. -/
structure BubbleExact (len itemLen : UInt64) : Prop where
  ends : ∀ (σ : Type) (swapCb : HySortSwapCb σ) (array : List UInt8) cb,
    len.toNat * itemLen.toNat ≤ array.length →
      ∃ fuel, (hySortBubble64 swapCb fuel array cb len itemLen).result ≠ .error .rounds
  exact : ∀ (σ : Type) (swapCb : HySortSwapCb σ) (array : List UInt8) cb fuel,
    len.toNat * itemLen.toNat ≤ array.length →
      ∀ r ∈ (hySortBubble64 swapCb fuel array cb len itemLen).trace, r.Exact itemLen

/-! ## Quick sort, with its indexes -/

/-- An access to an item, by its index. -/
def itemSeen (array : List UInt8) (index : Int32) (itemLen : UInt32) :
    Traced Int32 Stop (List UInt8) := do
  .note index
  .lift (item array index itemLen)

/-- `_mem_swap` of two items, by their indexes. -/
def memSwapSeen (array : List UInt8) (dst src : Int32) (itemLen : UInt32) :
    Traced Int32 Stop (List UInt8) := do
  .note dst
  .note src
  .lift (access (memSwap array (offset dst itemLen) (offset src itemLen) itemLen))

/-- `scanHigh`, with the indexes it addresses. -/
def scanHighSeen (swapCb : HySortSwapCb σ) (array : List UInt8) (itemLen : UInt32)
    (tmp : List UInt8) : ℕ → Int32 → σ → Traced Int32 Stop (Int32 × σ)
  | 0, high, cb => pure (high, cb)
  | k + 1, high, cb => do
    let x ← itemSeen array high itemLen
    let (c, cb) := swapCb cb x tmp
    if c ≥ 0 then scanHighSeen swapCb array itemLen tmp k (high - 1) cb else pure (high, cb)

/-- `scanLow`, with the indexes it addresses. -/
def scanLowSeen (swapCb : HySortSwapCb σ) (array : List UInt8) (itemLen : UInt32)
    (tmp : List UInt8) : ℕ → Int32 → σ → Traced Int32 Stop (Int32 × σ)
  | 0, low, cb => pure (low, cb)
  | k + 1, low, cb => do
    let x ← itemSeen array low itemLen
    let (c, cb) := swapCb cb x tmp
    if c ≤ 0 then scanLowSeen swapCb array itemLen tmp k (low + 1) cb else pure (low, cb)

/-- `partitionLoop`, with the indexes it addresses. -/
def partitionLoopSeen (swapCb : HySortSwapCb σ) (itemLen : UInt32) (tmp : List UInt8) :
    ℕ → Int32 → Int32 → List UInt8 → σ → Traced Int32 Stop (Int32 × List UInt8 × σ)
  | 0, _, _, _, _ => .lift (.error .rounds)
  | fuel + 1, low, high, array, cb =>
    if low < high then do
      let (high, cb) ← scanHighSeen swapCb array itemLen tmp (gap low high) high cb
      let array ← memSwapSeen array low high itemLen
      let (low, cb) ← scanLowSeen swapCb array itemLen tmp (gap low high) low cb
      let array ← memSwapSeen array high low itemLen
      partitionLoopSeen swapCb itemLen tmp fuel low high array cb
    else pure (low, array, cb)

/-- `partition`, with the indexes it addresses. -/
def partitionSeen (swapCb : HySortSwapCb σ) (mallocOk : ℕ → Bool) (itemLen : UInt32) (fuel : ℕ)
    (low high : Int32) (st : Sorting σ) : Traced Int32 Stop (Int32 × Sorting σ) :=
  if ¬ mallocOk st.mallocs then pure (-1, { st with mallocs := st.mallocs + 1 })
  else if ¬ mallocOk (st.mallocs + 1) then pure (-1, { st with mallocs := st.mallocs + 2 })
  else do
    let tmp ← itemSeen st.array low itemLen
    let (low, array, cb) ← partitionLoopSeen swapCb itemLen tmp fuel low high st.array st.cb
    .note low
    let array ← .lift (access (store array (offset low itemLen) tmp))
    return (low, { array, cb, mallocs := st.mallocs + 2 })

/-- Whatever the array that holds the items, the comparison function and the allocations,
`_partition` computes the offset of every item it addresses, and `HySortQuick` can count down and
up from the position it is given. -/
structure QuickExact (itemLen : UInt64) (low high : Int32) : Prop where
  offset : ∀ (σ : Type) (swapCb : HySortSwapCb σ) mallocOk fuel (st : Sorting σ),
    (high.toNatClampNeg + 1) * itemLen.toNat ≤ st.array.length →
      ∀ i ∈ (partitionSeen swapCb mallocOk (UInt32.ofNat itemLen.toNat) fuel low high st).trace,
        (offset i (UInt32.ofNat itemLen.toNat) : ℤ) = i.toInt * itemLen.toNat
  position : itemLen ≠ 0 → low < high → ∀ (σ : Type) (swapCb : HySortSwapCb σ) mallocOk fuel
    (st : Sorting σ) position st', (high.toNatClampNeg + 1) * itemLen.toNat ≤ st.array.length →
      partition swapCb mallocOk (UInt32.ofNat itemLen.toNat) fuel low high st =
          .ok (position, st') →
        -2 ^ 31 ≤ position.toInt - 1 ∧ position.toInt + 1 < 2 ^ 31

/-! ## The rounds of bubble sort -/

section Bubble

variable {swapCb : HySortSwapCb σ} {len itemLen bound : UInt64}

theorem toUInt64_lt_iff {j : UInt32} : j.toUInt64 < bound ↔ j.toNat < bound.toNat := by
  rw [UInt64.lt_iff_toNat_lt, UInt32.toNat_toUInt64]

/-- The offsets of a round, for a counter that does not wrap. -/
theorem toNat_bubbleRound (itemLen : UInt64) {j : UInt32} (hj : j.toNat + 1 < 2 ^ 32) :
    (bubbleRound itemLen j).src.toNat = itemLen.toNat * j.toNat % 2 ^ 64 ∧
      (bubbleRound itemLen j).dst.toNat = itemLen.toNat * (j.toNat + 1) % 2 ^ 64 := by
  constructor
  · rw [bubbleRound, UInt64.toNat_mul, UInt32.toNat_toUInt64]
  · rw [bubbleRound, UInt64.toNat_mul, UInt32.toNat_toUInt64, toNat_add_one hj]

/-- A round is exact when the larger of its offsets fits 64 bits. -/
theorem exact_bubbleRound_iff {j : UInt32} (hj : j.toNat + 1 < 2 ^ 32) :
    (bubbleRound itemLen j).Exact itemLen ↔ itemLen.toNat * (j.toNat + 1) < 2 ^ 64 := by
  obtain ⟨hsrc, hdst⟩ := toNat_bubbleRound itemLen hj
  rw [BubbleRound.Exact, hsrc, hdst]
  constructor
  · rintro ⟨-, h⟩
    exact h ▸ Nat.mod_lt _ (Nat.two_pow_pos 64)
  · intro h
    refine ⟨Nat.mod_eq_of_lt (lt_of_le_of_lt ?_ h), Nat.mod_eq_of_lt h⟩
    exact Nat.mul_le_mul_left _ (Nat.le_succ _)

/-- The rounds of a pass up to a bound that 32 bits can count. -/
def InPass (itemLen : UInt64) (bound : ℕ) (r : BubbleRound) : Prop :=
  ∃ j : UInt32, j.toNat + 1 < bound ∧ r = bubbleRound itemLen j

theorem InPass.mono {bound bound' : ℕ} {r : BubbleRound} (h : InPass itemLen bound r)
    (hle : bound ≤ bound') : InPass itemLen bound' r := by
  obtain ⟨j, hj, hr⟩ := h
  exact ⟨j, hj.trans_le hle, hr⟩

theorem bubbleInner64_rounds (hbound : bound.toNat < 2 ^ 32) (fuel : ℕ) {j : UInt32}
    (hj : j.toNat + 1 < 2 ^ 32) (s : List UInt8 × σ) :
    (bubbleInner64 swapCb itemLen bound fuel j s).Ensures (InPass itemLen bound.toNat)
      fun _ => True := by
  induction fuel generalizing j s with
  | zero => exact .lift_error
  | succ fuel ih =>
    rw [bubbleInner64]
    split_ifs with hlt
    · -- the counter is below a bound of 32 bits, so it does not wrap
      rw [toUInt64_lt_iff, toNat_add_one hj] at hlt
      apply Traced.Ensures.bind (.note ⟨j, hlt, rfl⟩)
      intro _ _
      apply Traced.Ensures.bind (.lift fun _ _ => trivial)
      intro s' _
      exact ih (by rw [toNat_add_one hj]; omega) s'
    · exact .pure trivial

theorem toNat_bound {i : UInt32} (h : i.toUInt64 < len) :
    (len - i.toUInt64).toNat = len.toNat - i.toNat := by
  rw [UInt64.toNat_sub_of_le _ _ (UInt64.le_of_lt h), UInt32.toNat_toUInt64]

theorem bubbleOuter64_rounds (hlen : len.toNat < 2 ^ 32) (fuel rounds : ℕ) (i : UInt32)
    (s : List UInt8 × σ) :
    (bubbleOuter64 swapCb len itemLen fuel rounds i s).Ensures (InPass itemLen len.toNat)
      fun _ => True := by
  induction rounds generalizing i s with
  | zero => exact .lift_error
  | succ rounds ih =>
    rw [bubbleOuter64]
    split_ifs with hlt
    · have hbound := toNat_bound hlt
      have hpass := @bubbleInner64_rounds σ swapCb itemLen (len - i.toUInt64) (by omega) fuel 0
        (by decide) s
      -- the passes become shorter
      apply Traced.Ensures.bind (hpass.mono (fun r hr => hr.mono (by omega)) fun _ => id)
      exact fun s' _ => ih (i + 1) s'
    · exact .pure trivial

/-! ### The loops end -/

/-- A sequence has rounds enough when both computations have. -/
theorem bind_ne_rounds {α β : Type} {m : Except Stop α} {f : α → Except Stop β}
    (hm : m ≠ .error .rounds) (hf : ∀ a, f a ≠ .error .rounds) : m >>= f ≠ .error .rounds := by
  cases m with
  | error e => exact fun h => hm (by cases h; rfl)
  | ok a => exact hf a

theorem access_ne_rounds {α : Type} (a : Option α) : access a ≠ .error .rounds := by
  cases a with
  | none => exact fun h => by cases h
  | some a => exact fun h => by cases h

theorem compareItems_ne_rounds (swapCb : HySortSwapCb σ) (itemLen src dst : ℕ)
    (s : List UInt8 × σ) : compareItems swapCb itemLen src dst s ≠ .error .rounds := by
  apply bind_ne_rounds (access_ne_rounds _)
  intro x
  apply bind_ne_rounds (access_ne_rounds _)
  intro y
  dsimp only
  split_ifs
  · exact bind_ne_rounds (access_ne_rounds _) fun array h => by cases h
  · exact fun h => by cases h

theorem bubbleInner64_ends (hbound : bound.toNat < 2 ^ 32) {fuel : ℕ} {j : UInt32}
    (hj : j.toNat + 1 < 2 ^ 32) (hfuel : bound.toNat < fuel + j.toNat) (hpos : 0 < fuel)
    (s : List UInt8 × σ) :
    (bubbleInner64 swapCb itemLen bound fuel j s).result ≠ .error .rounds := by
  induction fuel generalizing j s with
  | zero => exact absurd hpos (Nat.lt_irrefl 0)
  | succ fuel ih =>
    rw [bubbleInner64]
    split_ifs with hlt
    · -- the counter meets the bound before the rounds run out
      rw [toUInt64_lt_iff, toNat_add_one hj] at hlt
      have hj1 := toNat_add_one hj
      rw [Traced.note_bind, Traced.result_bind, Traced.result_lift]
      apply bind_ne_rounds (compareItems_ne_rounds _ _ _ _ _)
      intro s'
      exact ih (by omega) (by omega) (by omega) s'
    · exact fun h => by cases h

theorem bubbleOuter64_ends (hlen : len.toNat < 2 ^ 32) {rounds : ℕ} {i : UInt32}
    (hrounds : len.toNat < rounds + i.toNat) (hpos : 0 < rounds) (s : List UInt8 × σ) :
    (bubbleOuter64 swapCb len itemLen (len.toNat + 1) rounds i s).result ≠ .error .rounds := by
  induction rounds generalizing i s with
  | zero => exact absurd hpos (Nat.lt_irrefl 0)
  | succ rounds ih =>
    rw [bubbleOuter64]
    split_ifs with hlt
    · have hbound := toNat_bound hlt
      rw [toUInt64_lt_iff] at hlt
      have hi1 : (i + 1).toNat = i.toNat + 1 := toNat_add_one (by omega)
      rw [Traced.result_bind]
      apply bind_ne_rounds
      · apply bubbleInner64_ends (by omega) (by decide) _ (Nat.succ_pos _)
        change _ < len.toNat + 1 + 0
        omega
      · exact fun s' => ih (by omega) (by omega) s'
    · exact fun h => by cases h

/-! ### An array of zeros -/

/-- A region of zeros. -/
abbrev zeros (n : ℕ) : List UInt8 := List.replicate n 0

theorem load_zeros {n off k : ℕ} (h : off + k ≤ n) : load (zeros n) off k = some (zeros k) := by
  rw [load, if_pos (by rwa [List.length_replicate]), List.drop_replicate, List.take_replicate,
    min_eq_left (by omega)]

/-- Items that are the same are not exchanged. -/
theorem compareItems_zeros {n itemLen src dst : ℕ} (hsrc : src + itemLen ≤ n)
    (hdst : dst + itemLen ≤ n) :
    compareItems equalCb itemLen src dst (zeros n, ()) = .ok (zeros n, ()) := by
  rw [compareItems, load_zeros hsrc, load_zeros hdst]
  rfl

/-- The offset of an item, reduced or not, is one within the array. -/
theorem offset_add_le {n : ℕ} {j : UInt32} (h : j.toNat < n) :
    (itemLen * j.toUInt64).toNat + itemLen.toNat ≤ n * itemLen.toNat := by
  rw [UInt64.toNat_mul, UInt32.toNat_toUInt64]
  have hmod := Nat.mod_le (itemLen.toNat * j.toNat) (2 ^ 64)
  calc itemLen.toNat * j.toNat % 2 ^ 64 + itemLen.toNat
      ≤ itemLen.toNat * j.toNat + itemLen.toNat := Nat.add_le_add_right hmod _
    _ = (j.toNat + 1) * itemLen.toNat := by rw [Nat.succ_mul, Nat.mul_comm]
    _ ≤ n * itemLen.toNat := Nat.mul_le_mul_right _ h

theorem compareItems_round {n : ℕ} {j : UInt32} (hj : j.toNat < n) (hj1 : (j + 1).toNat < n) :
    compareItems equalCb itemLen.toNat (bubbleRound itemLen j).src.toNat
        (bubbleRound itemLen j).dst.toNat (zeros (n * itemLen.toNat), ()) =
      .ok (zeros (n * itemLen.toNat), ()) :=
  compareItems_zeros (offset_add_le hj) (offset_add_le hj1)

/-- **A counter of 32 bits does not reach a bound of more**: the inner loop does not end. -/
theorem bubbleInner64_endless (hbound : 2 ^ 32 ≤ bound.toNat) (fuel : ℕ) (j : UInt32) :
    (bubbleInner64 equalCb itemLen bound fuel j
      (zeros (bound.toNat * itemLen.toNat), ())).result = .error .rounds := by
  induction fuel generalizing j with
  | zero => rfl
  | succ fuel ih =>
    -- also a counter that has wrapped is below the bound
    have hj := j.toNat_lt.trans_le hbound
    have hj1 := (j + 1).toNat_lt.trans_le hbound
    rw [bubbleInner64, if_pos (toUInt64_lt_iff.mpr hj1), Traced.note_bind,
      compareItems_round hj hj1, Traced.lift_ok_bind]
    exact ih (j + 1)

/-- The rounds of a pass are all made. -/
theorem bubbleInner64_visits (hbound : bound.toNat < 2 ^ 32) {fuel : ℕ} {j k : UInt32}
    (hjk : j.toNat ≤ k.toNat) (hk : k.toNat + 1 < bound.toNat) (hfuel : k.toNat < fuel + j.toNat) :
    bubbleRound itemLen k ∈
      (bubbleInner64 equalCb itemLen bound fuel j
        (zeros (bound.toNat * itemLen.toNat), ())).trace := by
  induction fuel generalizing j with
  | zero => omega
  | succ fuel ih =>
    have hj1 : (j + 1).toNat = j.toNat + 1 := toNat_add_one (by omega)
    have hlt : (j + 1).toNat < bound.toNat := by omega
    rw [bubbleInner64, if_pos (toUInt64_lt_iff.mpr hlt), Traced.note_bind,
      compareItems_round (by omega) hlt, Traced.lift_ok_bind]
    -- this is the round of `k`, or one before it
    rcases Nat.eq_or_lt_of_le hjk with heq | hlt'
    · obtain rfl := UInt32.toNat_inj.mp heq
      exact List.mem_cons_self
    · exact List.mem_cons_of_mem _ (ih (by omega) (by omega))

/-- The first pass of the sort is made over the whole length. -/
theorem hySortBubble64_first_pass (hlen : len ≠ 0) (hitem : itemLen ≠ 0) (fuel : ℕ)
    (array : List UInt8) :
    hySortBubble64 equalCb (fuel + 1) array () len itemLen =
      bubbleInner64 equalCb itemLen len (fuel + 1) 0 (array, ()) >>= fun s =>
        bubbleOuter64 equalCb len itemLen (fuel + 1) fuel 1 s := by
  have hpos : (0 : UInt32).toUInt64 < len := UInt64.pos_iff_ne_zero.mpr hlen
  have hbound : len - (0 : UInt32).toUInt64 = len := UInt64.sub_zero len
  rw [hySortBubble64, if_neg (not_or.mpr ⟨hlen, hitem⟩), bubbleOuter64, if_pos hpos, hbound]
  rfl

/-- With a length of more than 32 bits the first pass over an array of zeros does not end. -/
theorem BubbleExact.toNat_lt (h : BubbleExact len itemLen) (hlen : len ≠ 0) (hitem : itemLen ≠ 0) :
    len.toNat < 2 ^ 32 := by
  by_contra hlarge
  obtain ⟨fuel, hends⟩ := h.ends Unit equalCb (zeros (len.toNat * itemLen.toNat)) ()
    List.length_replicate.ge
  cases fuel with
  | zero =>
    rw [hySortBubble64, if_neg (not_or.mpr ⟨hlen, hitem⟩)] at hends
    exact hends rfl
  | succ fuel =>
    rw [hySortBubble64_first_pass hlen hitem, Traced.result_bind,
      bubbleInner64_endless (Nat.le_of_not_lt hlarge)] at hends
    exact hends rfl

/-- The last round of that pass has the largest offset. -/
theorem BubbleExact.mul_lt (h : BubbleExact len itemLen) (hlen : len ≠ 0) (hitem : itemLen ≠ 0) :
    itemLen.toNat * (len.toNat - 1) < 2 ^ 64 := by
  have hsmall := h.toNat_lt hlen hitem
  rcases Nat.lt_or_ge 1 len.toNat with htwo | hone
  · have hj : (UInt32.ofNat (len.toNat - 2)).toNat = len.toNat - 2 :=
      UInt32.toNat_ofNat_of_lt' (show _ < 2 ^ 32 by omega)
    have hmem : bubbleRound itemLen (UInt32.ofNat (len.toNat - 2)) ∈
        (hySortBubble64 equalCb (len.toNat + 1) (zeros (len.toNat * itemLen.toNat)) () len
          itemLen).trace := by
      rw [hySortBubble64_first_pass hlen hitem, Traced.mem_trace_bind]
      apply Or.inl
      apply bubbleInner64_visits hsmall (Nat.zero_le _)
      · omega
      · change _ < len.toNat + 1 + 0
        omega
    have hexact := h.exact Unit equalCb _ () _ List.length_replicate.ge _ hmem
    rw [exact_bubbleRound_iff (by omega), hj] at hexact
    rwa [show len.toNat - 1 = len.toNat - 2 + 1 by omega]
  · -- a single item is not compared
    rw [Nat.sub_eq_zero_of_le hone, Nat.mul_zero]
    exact Nat.two_pow_pos 64

theorem bubbleExact_of_done (h : len = 0 ∨ itemLen = 0) : BubbleExact len itemLen := by
  constructor
  · intro σ swapCb array cb _
    refine ⟨0, ?_⟩
    rw [hySortBubble64, if_pos h]
    exact fun h => by cases h
  · intro σ swapCb array cb fuel _ r hr
    rw [hySortBubble64, if_pos h] at hr
    exact absurd hr List.not_mem_nil

theorem bubbleExact_of_lt (hlen : len ≠ 0) (hitem : itemLen ≠ 0) (hsmall : len.toNat < 2 ^ 32)
    (hfit : itemLen.toNat * (len.toNat - 1) < 2 ^ 64) : BubbleExact len itemLen := by
  constructor
  · intro σ swapCb array cb _
    refine ⟨len.toNat + 1, ?_⟩
    rw [hySortBubble64, if_neg (not_or.mpr ⟨hlen, hitem⟩)]
    apply bubbleOuter64_ends hsmall _ (Nat.succ_pos _)
    exact Nat.lt_succ_self _
  · intro σ swapCb array cb fuel _ r hr
    rw [hySortBubble64, if_neg (not_or.mpr ⟨hlen, hitem⟩)] at hr
    obtain ⟨j, hj, rfl⟩ := (bubbleOuter64_rounds hsmall fuel fuel 0 (array, cb)).trace r hr
    rw [exact_bubbleRound_iff (by omega)]
    exact (Nat.mul_le_mul_left _ (Nat.le_sub_one_of_lt hj)).trans_lt hfit

/-- **The arithmetic of bubble sort is exact** exactly when there is nothing to do, or 32 bits
count the items and 64 bits the bytes before the last one. -/
theorem bubbleExact_iff (len itemLen : UInt64) :
    BubbleExact len itemLen ↔
      len = 0 ∨ itemLen = 0 ∨
        len.toNat < 2 ^ 32 ∧ itemLen.toNat * (len.toNat - 1) < 2 ^ 64 := by
  by_cases hlen : len = 0
  · exact iff_of_true (bubbleExact_of_done (.inl hlen)) (.inl hlen)
  by_cases hitem : itemLen = 0
  · exact iff_of_true (bubbleExact_of_done (.inr hitem)) (.inr (.inl hitem))
  rw [or_iff_right hlen, or_iff_right hitem]
  constructor
  · intro h
    exact ⟨h.toNat_lt hlen hitem, h.mul_lt hlen hitem⟩
  · rintro ⟨hsmall, hfit⟩
    exact bubbleExact_of_lt hlen hitem hsmall hfit

/-! ### The loops are those of the sort -/

theorem result_bubbleInner64 (hsmall : len.toNat < 2 ^ 32)
    (hfit : itemLen.toNat * (len.toNat - 1) < 2 ^ 64) (hbound : bound.toNat ≤ len.toNat)
    (fuel : ℕ) {j : UInt32} (hj : j.toNat + 1 < 2 ^ 32) (s : List UInt8 × σ) :
    (bubbleInner64 swapCb itemLen bound fuel j s).result =
      bubbleInner swapCb itemLen.toNat bound.toNat fuel j s := by
  induction fuel generalizing j s with
  | zero => rfl
  | succ fuel ih =>
    rw [bubbleInner64, bubbleInner]
    by_cases hlt : (j + 1).toNat < bound.toNat
    · -- the offsets are exact, so the same items are compared
      have hj1 := toNat_add_one hj
      obtain ⟨hsrc, hdst⟩ : (bubbleRound itemLen j).Exact itemLen := by
        rw [exact_bubbleRound_iff hj]
        exact (Nat.mul_le_mul_left _ (by omega)).trans_lt hfit
      rw [if_pos (toUInt64_lt_iff.mpr hlt), if_pos hlt, Traced.note_bind, Traced.result_bind,
        Traced.result_lift, hsrc, hdst, hj1, compareItems]
      simp only [bind_assoc]
      congr 1
      funext x
      congr 1
      funext y
      have hnext : ∀ s, (bubbleInner64 swapCb itemLen bound fuel (j + 1) s).result =
          bubbleInner swapCb itemLen.toNat bound.toNat fuel (j + 1) s := ih (by omega)
      split_ifs
      · simp only [bind_assoc, pure_bind, hnext]
        rfl
      · exact hnext _
    · rw [if_neg (fun h => hlt (toUInt64_lt_iff.mp h)), if_neg hlt]
      rfl

theorem result_bubbleOuter64 (hsmall : len.toNat < 2 ^ 32)
    (hfit : itemLen.toNat * (len.toNat - 1) < 2 ^ 64) (fuel rounds : ℕ) (i : UInt32)
    (s : List UInt8 × σ) :
    (bubbleOuter64 swapCb len itemLen fuel rounds i s).result =
      bubbleOuter swapCb len.toNat itemLen.toNat fuel rounds i s := by
  induction rounds generalizing i s with
  | zero => rfl
  | succ rounds ih =>
    rw [bubbleOuter64, bubbleOuter]
    by_cases hlt : i.toNat < len.toNat
    · have hlt' := toUInt64_lt_iff.mpr hlt
      have hbound := toNat_bound hlt'
      rw [if_pos hlt', if_pos hlt, Traced.result_bind,
        result_bubbleInner64 hsmall hfit (hbound.trans_le (Nat.sub_le _ _)) fuel (by decide),
        hbound]
      simp only [ih]
    · rw [if_neg (fun h => hlt (toUInt64_lt_iff.mp h)), if_neg hlt]
      rfl

/-- **Where the arithmetic is exact** the loops are those of `HySortBubble`. -/
theorem result_hySortBubble64 (hsmall : len.toNat < 2 ^ 32)
    (hfit : itemLen.toNat * (len.toNat - 1) < 2 ^ 64) (fuel : ℕ) (array : List UInt8) (cb : σ) :
    (hySortBubble64 swapCb fuel array cb len itemLen).result =
      hySortBubble swapCb true fuel array cb len.toNat itemLen.toNat := by
  have hzero : ∀ x : UInt64, x = 0 ↔ x.toNat = 0 := fun x => UInt64.toNat_inj.symm
  rw [hySortBubble64, hySortBubble]
  simp only [hzero]
  split_ifs
  · rfl
  · exact result_bubbleOuter64 hsmall hfit fuel fuel 0 (array, cb)

end Bubble

/-! ## The indexes of `_partition` -/

section Partition

variable {swapCb : HySortSwapCb σ} {itemLen : UInt32} {array tmp : List UInt8}

/-! ### The functions without their indexes -/

@[simp] theorem result_itemSeen (array : List UInt8) (i : Int32) (itemLen : UInt32) :
    (itemSeen array i itemLen).result = item array i itemLen := rfl

@[simp] theorem result_memSwapSeen (array : List UInt8) (dst src : Int32) (itemLen : UInt32) :
    (memSwapSeen array dst src itemLen).result =
      access (memSwap array (offset dst itemLen) (offset src itemLen) itemLen) := rfl

theorem result_scanHighSeen (k : ℕ) (high : Int32) (cb : σ) :
    (scanHighSeen swapCb array itemLen tmp k high cb).result =
      scanHigh swapCb array itemLen tmp k high cb := by
  induction k generalizing high cb with
  | zero => rfl
  | succ k ih =>
    rw [scanHighSeen, scanHigh, Traced.result_bind, result_itemSeen]
    congr 1
    funext x
    dsimp only
    split_ifs
    · exact ih _ _
    · rfl

theorem result_scanLowSeen (k : ℕ) (low : Int32) (cb : σ) :
    (scanLowSeen swapCb array itemLen tmp k low cb).result =
      scanLow swapCb array itemLen tmp k low cb := by
  induction k generalizing low cb with
  | zero => rfl
  | succ k ih =>
    rw [scanLowSeen, scanLow, Traced.result_bind, result_itemSeen]
    congr 1
    funext x
    dsimp only
    split_ifs
    · exact ih _ _
    · rfl

theorem result_partitionLoopSeen (fuel : ℕ) (low high : Int32) (array : List UInt8) (cb : σ) :
    (partitionLoopSeen swapCb itemLen tmp fuel low high array cb).result =
      partitionLoop swapCb itemLen tmp fuel low high array cb := by
  induction fuel generalizing low high array cb with
  | zero => rfl
  | succ fuel ih =>
    rw [partitionLoopSeen, partitionLoop]
    split_ifs
    · simp only [Traced.result_bind, result_scanHighSeen, result_memSwapSeen,
        result_scanLowSeen, ih]
    · rfl

/-- **Without its indexes** the function is `_partition`. -/
theorem result_partitionSeen (mallocOk : ℕ → Bool) (fuel : ℕ) (low high : Int32)
    (st : Sorting σ) :
    (partitionSeen swapCb mallocOk itemLen fuel low high st).result =
      partition swapCb mallocOk itemLen fuel low high st := by
  rw [partitionSeen, partition]
  split_ifs
  · simp only [Traced.result_bind, result_itemSeen, result_partitionLoopSeen]
    rfl
  · rfl
  · rfl

/-! ### The indexes are in the range -/

/-- An index of the range from `low` up to `high`. -/
def Between (low high i : Int32) : Prop := low.toInt ≤ i.toInt ∧ i.toInt ≤ high.toInt

theorem scanHighSeen_between {low : Int32} (hlow : 0 ≤ low.toInt) (k : ℕ) {high : Int32}
    (hk : low.toInt + k ≤ high.toInt) (cb : σ) :
    (scanHighSeen swapCb array itemLen tmp k high cb).Ensures (Between low high)
      fun r => Between low high r.1 := by
  induction k generalizing high cb with
  | zero => exact .pure ⟨le_trans (by omega) hk, le_rfl⟩
  | succ k ih =>
    rw [scanHighSeen]
    have hhigh : Between low high high := ⟨by omega, le_rfl⟩
    have hitem : (itemSeen array high itemLen).Ensures (Between low high) fun _ => True :=
      .bind (.note hhigh) fun _ _ => .lift fun _ _ => trivial
    apply Traced.Ensures.bind hitem
    intro x _
    dsimp only
    split_ifs
    · -- the scan goes down by one
      have hone : (1 : Int32) ≤ high := by
        rw [Int32.le_iff_toInt_le, Int32.toInt_one]
        omega
      have hdown := toInt_sub_one hone
      have hrest := @ih (high - 1) (by omega) (swapCb cb x tmp).2
      exact hrest.mono (fun i hi => ⟨hi.1, hi.2.trans (by omega)⟩)
        fun r hr => ⟨hr.1, hr.2.trans (by omega)⟩
    · exact .pure hhigh

theorem scanLowSeen_between {high : Int32} (k : ℕ) {low : Int32}
    (hk : low.toInt + k ≤ high.toInt) (cb : σ) :
    (scanLowSeen swapCb array itemLen tmp k low cb).Ensures (Between low high)
      fun r => Between low high r.1 := by
  induction k generalizing low cb with
  | zero =>
    have hle : low.toInt ≤ high.toInt := by omega
    exact .pure ⟨le_rfl, hle⟩
  | succ k ih =>
    rw [scanLowSeen]
    have hmax := high.toInt_lt
    have hlow : Between low high low := ⟨le_rfl, by omega⟩
    have hitem : (itemSeen array low itemLen).Ensures (Between low high) fun _ => True :=
      .bind (.note hlow) fun _ _ => .lift fun _ _ => trivial
    apply Traced.Ensures.bind hitem
    intro x _
    dsimp only
    split_ifs
    · -- the scan goes up by one
      have hup : (low + 1).toInt = low.toInt + 1 := toInt_add_one (by omega)
      have hrest := @ih (low + 1) (by omega) (swapCb cb x tmp).2
      exact hrest.mono (fun i hi => ⟨le_trans (by omega) hi.1, hi.2⟩)
        fun r hr => ⟨le_trans (by omega) hr.1, hr.2⟩
    · exact .pure hlow

theorem memSwapSeen_between {low high dst src : Int32} (hdst : Between low high dst)
    (hsrc : Between low high src) :
    (memSwapSeen array dst src itemLen).Ensures (Between low high) fun _ => True :=
  .bind (.note hdst) fun _ _ => .bind (.note hsrc) fun _ _ => .lift fun _ _ => trivial

theorem toInt_add_gap {low high : Int32} (h : low.toInt ≤ high.toInt) :
    low.toInt + gap low high = high.toInt := by
  rw [gap]
  omega

theorem partitionLoopSeen_between {lo hi : Int32} (hlo : 0 ≤ lo.toInt) (fuel : ℕ)
    {low high : Int32} (hlow : lo.toInt ≤ low.toInt) (hle : low.toInt ≤ high.toInt)
    (hhigh : high.toInt ≤ hi.toInt) (array : List UInt8) (cb : σ) :
    (partitionLoopSeen swapCb itemLen tmp fuel low high array cb).Ensures (Between lo hi)
      fun r => Between lo hi r.1 := by
  induction fuel generalizing low high array cb with
  | zero => exact .lift_error
  | succ fuel ih =>
    rw [partitionLoopSeen]
    split_ifs with hlt
    · -- the scans only move the ends towards each other
      have hscan := @scanHighSeen_between σ swapCb itemLen array tmp low (by omega)
        (gap low high) high (toInt_add_gap hle).le cb
      apply Traced.Ensures.bind (hscan.mono
        (fun i hi' => ⟨hlow.trans hi'.1, hi'.2.trans hhigh⟩) fun _ => id)
      rintro ⟨high', cb'⟩ ⟨hle', hhigh'⟩
      have hswap : Between lo hi low ∧ Between lo hi high' :=
        ⟨⟨hlow, hle.trans hhigh⟩, ⟨hlow.trans hle', hhigh'.trans hhigh⟩⟩
      apply Traced.Ensures.bind (memSwapSeen_between hswap.1 hswap.2)
      intro array' _
      have hscan' := @scanLowSeen_between σ swapCb itemLen array' tmp high' (gap low high') low
        (toInt_add_gap hle').le cb'
      apply Traced.Ensures.bind (hscan'.mono
        (fun i hi' => ⟨hlow.trans hi'.1, hi'.2.trans hswap.2.2⟩) fun _ => id)
      rintro ⟨low', cb''⟩ ⟨hlow', hle''⟩
      apply Traced.Ensures.bind (memSwapSeen_between hswap.2
        ⟨hlow.trans hlow', hle''.trans hswap.2.2⟩)
      intro array'' _
      exact ih (hlow.trans hlow') hle'' hswap.2.2 array'' cb''
    · exact .pure ⟨hlow, hle.trans hhigh⟩

/-- **`_partition` addresses items of its range**, and returns an index of it, or -1. -/
theorem partitionSeen_between {low high : Int32} (hlow : 0 ≤ low.toInt)
    (hle : low.toInt ≤ high.toInt) (mallocOk : ℕ → Bool) (fuel : ℕ) (st : Sorting σ) :
    (partitionSeen swapCb mallocOk itemLen fuel low high st).Ensures (Between low high)
      fun r => r.1 = -1 ∨ Between low high r.1 := by
  rw [partitionSeen]
  split_ifs
  · have hfirst : Between low high low := ⟨le_rfl, hle⟩
    have hitem : (itemSeen st.array low itemLen).Ensures (Between low high) fun _ => True :=
      .bind (.note hfirst) fun _ _ => .lift fun _ _ => trivial
    apply Traced.Ensures.bind hitem
    intro tmp _
    apply Traced.Ensures.bind
      (partitionLoopSeen_between hlow fuel le_rfl hle le_rfl st.array st.cb)
    rintro ⟨low', array', cb'⟩ hlow'
    apply Traced.Ensures.bind (.note hlow')
    intro _ _
    apply Traced.Ensures.bind (.lift fun _ _ => trivial)
    exact fun _ _ => .pure (.inr hlow')
  · exact .pure (.inl rfl)
  · exact .pure (.inl rfl)

/-! ### The pivot of an array of zeros -/

/-- The items from `low` up to `high` are within `n` bytes. -/
def Holds (itemLen : UInt32) (low high : Int32) (n : ℕ) : Prop :=
  ∀ i, Between low high i → offset i itemLen + itemLen.toNat ≤ n

variable {n : ℕ} {low high : Int32}

theorem Holds.item (h : Holds itemLen low high n) {i : Int32} (hi : Between low high i) :
    item (zeros n) i itemLen = .ok (zeros itemLen.toNat) := by
  rw [Sort.item, load_zeros (h i hi)]
  rfl

theorem Holds.memSwap (h : Holds itemLen low high n) {i j : Int32} (hi : Between low high i)
    (hj : Between low high j) :
    memSwap (zeros n) (offset i itemLen) (offset j itemLen) itemLen = some (zeros n) :=
  memSwap_same (load_zeros (h i hi)) (load_zeros (h j hj))

/-- The first scan stops at once, at an item below the pivot. -/
theorem Holds.scanHigh (h : Holds itemLen low high n) (hle : low.toInt ≤ high.toInt) (k : ℕ) :
    scanHigh belowCb (zeros n) itemLen tmp k high () = .ok (high, ()) := by
  cases k with
  | zero => rfl
  | succ k =>
    rw [Sort.scanHigh, h.item ⟨hle, le_rfl⟩]
    rfl

/-- The second scan stops where the first one did. -/
theorem Holds.scanLow (h : Holds itemLen low high n) (k : ℕ) {i : Int32}
    (hi : low.toInt ≤ i.toInt) (hk : i.toInt + k = high.toInt) :
    scanLow belowCb (zeros n) itemLen tmp k i () = .ok (high, ()) := by
  induction k generalizing i with
  | zero =>
    have heq : i.toInt = high.toInt := by omega
    rw [Sort.scanLow, Int32.toInt_inj.mp heq]
  | succ k ih =>
    have hmax := high.toInt_lt
    have hup : (i + 1).toInt = i.toInt + 1 := toInt_add_one (by omega)
    rw [Sort.scanLow, h.item ⟨hi, by omega⟩]
    exact ih (by omega) (by omega)

theorem Holds.partitionLoop (h : Holds itemLen low high n) (hle : low.toInt ≤ high.toInt) :
    partitionLoop belowCb itemLen tmp 2 low high (zeros n) () = .ok (high, zeros n, ()) := by
  have hlow : Between low high low := ⟨le_rfl, hle⟩
  have hhigh : Between low high high := ⟨hle, le_rfl⟩
  rw [Sort.partitionLoop]
  split_ifs with hlt
  · rw [h.scanHigh hle]
    simp only [bind, Except.bind, h.memSwap hlow hhigh, h.memSwap hhigh hhigh, access_some,
      h.scanLow _ le_rfl (toInt_add_gap hle)]
    rw [Sort.partitionLoop, if_neg Int32.lt_irrefl]
  · rw [Int32.lt_iff_toInt_lt, not_lt] at hlt
    rw [Int32.toInt_inj.mp (le_antisymm hle hlt)]

/-- **The pivot comes to the last index**, at which it is written back. -/
theorem Holds.partitionSeen (h : Holds itemLen low high n) (hle : low.toInt ≤ high.toInt) :
    high ∈ (partitionSeen belowCb (fun _ => true) itemLen 2 low high ⟨zeros n, (), 0⟩).trace := by
  rw [Sort.partitionSeen, if_neg (not_not.mpr rfl), if_neg (not_not.mpr rfl),
    Traced.mem_trace_bind]
  refine .inr ⟨_, h.item ⟨le_rfl, hle⟩, ?_⟩
  rw [Traced.mem_trace_bind]
  refine .inr ⟨_, (result_partitionLoopSeen ..).trans (h.partitionLoop hle), ?_⟩
  dsimp only
  rw [Traced.note_bind]
  exact List.mem_cons_self

theorem Holds.partition (h : Holds itemLen low high n) (hle : low.toInt ≤ high.toInt) :
    ∃ st, partition belowCb (fun _ => true) itemLen 2 low high ⟨zeros n, (), 0⟩ =
      .ok (high, st) := by
  have hstore := store_load (load_zeros (h high ⟨hle, le_rfl⟩))
  rw [Sort.partition, if_neg (not_not.mpr rfl), if_neg (not_not.mpr rfl)]
  simp only [bind, Except.bind, h.item ⟨le_rfl, hle⟩, h.partitionLoop hle, hstore, access_some]
  exact ⟨_, rfl⟩

end Partition

/-! ## When the arithmetic is exact -/

/-- The offset of an item, reduced to 32 bits. -/
theorem offset_eq_mod {i : Int32} (hi : 0 ≤ i.toInt) (itemLen : UInt64) :
    offset i (UInt32.ofNat itemLen.toNat) = i.toNatClampNeg * itemLen.toNat % 2 ^ 32 := by
  rw [offset, UInt32.toNat_mul, Int32.toNat_toUInt32_of_le (Int32.le_iff_toInt_le.mpr hi),
    UInt32.toNat_ofNat', Nat.mul_mod_mod]

theorem cast_toNatClampNeg {i : Int32} (hi : 0 ≤ i.toInt) : (i.toNatClampNeg : ℤ) = i.toInt := by
  rw [← Int32.toNat_toInt, Int.toNat_of_nonneg hi]

/-- The offset of an item, when 32 bits are enough for it. -/
theorem offset_eq {i : Int32} {itemLen : UInt64} (hi : 0 ≤ i.toInt)
    (hoff : i.toInt * itemLen.toNat < 2 ^ 32) :
    (offset i (UInt32.ofNat itemLen.toNat) : ℤ) = i.toInt * itemLen.toNat := by
  rw [← cast_toNatClampNeg hi] at hoff ⊢
  have hoff' : i.toNatClampNeg * itemLen.toNat < 2 ^ 32 := by exact_mod_cast hoff
  rw [offset_eq_mod hi, Nat.mod_eq_of_lt hoff', Int.natCast_mul]

/-- The offsets, reduced or not, are within an array of the items. -/
theorem holds_items {low high : Int32} (hlow : 0 ≤ low.toInt) (itemLen : UInt64) :
    Holds (UInt32.ofNat itemLen.toNat) low high ((high.toNatClampNeg + 1) * itemLen.toNat) := by
  rintro i ⟨hlo, hhi⟩
  have hi := hlow.trans hlo
  have hle : i.toNatClampNeg ≤ high.toNatClampNeg := by
    rw [← Int32.toNat_toInt, ← Int32.toNat_toInt]
    exact Int.toNat_le_toNat hhi
  calc offset i (UInt32.ofNat itemLen.toNat) + (UInt32.ofNat itemLen.toNat).toNat
      ≤ i.toNatClampNeg * itemLen.toNat + itemLen.toNat := by
        rw [offset_eq_mod hi, UInt32.toNat_ofNat']
        exact Nat.add_le_add (Nat.mod_le _ _) (Nat.mod_le _ _)
    _ = (i.toNatClampNeg + 1) * itemLen.toNat := (Nat.succ_mul _ _).symm
    _ ≤ (high.toNatClampNeg + 1) * itemLen.toNat := Nat.mul_le_mul_right _ (by omega)

section Quick

variable {low high : Int32} {itemLen : UInt64}

/-- The last item is addressed, with an offset of 32 bits. -/
theorem QuickExact.mul_lt (h : QuickExact itemLen low high) (hlow : 0 ≤ low.toInt)
    (hle : low.toInt ≤ high.toInt) : high.toInt * itemLen.toNat < 2 ^ 32 := by
  have hmem := (@holds_items low high hlow itemLen).partitionSeen hle
  have hoff := h.offset Unit belowCb _ _ _ List.length_replicate.ge high hmem
  have hlt : Sort.offset high (UInt32.ofNat itemLen.toNat) < 2 ^ 32 := UInt32.toNat_lt _
  rw [← hoff]
  exact_mod_cast hlt

/-- The pivot can come to the last index, and the next one is computed. -/
theorem QuickExact.add_one_lt (h : QuickExact itemLen low high) (hlow : 0 ≤ low.toInt)
    (hlt : low < high) (hitem : itemLen ≠ 0) : high.toInt + 1 < 2 ^ 31 := by
  have hle : low.toInt ≤ high.toInt := (Int32.lt_iff_toInt_lt.mp hlt).le
  obtain ⟨st, hrun⟩ := (@holds_items low high hlow itemLen).partition hle
  exact (h.position hitem hlt Unit belowCb _ _ _ _ _ List.length_replicate.ge hrun).2

theorem quickExact_of_lt (hlow : 0 ≤ low.toInt) (hle : low.toInt ≤ high.toInt)
    (hoff : high.toInt * itemLen.toNat < 2 ^ 32)
    (hmax : itemLen ≠ 0 → low < high → high.toInt + 1 < 2 ^ 31) :
    QuickExact itemLen low high := by
  constructor
  · intro σ swapCb mallocOk fuel st _ i hi
    obtain ⟨hlo, hhi⟩ := (partitionSeen_between hlow hle mallocOk fuel st).trace i hi
    apply offset_eq (hlow.trans hlo)
    apply lt_of_le_of_lt _ hoff
    exact Int.mul_le_mul_of_nonneg_right hhi (Int.natCast_nonneg _)
  · intro hitem hlt σ swapCb mallocOk fuel st position st' _ hrun
    have hmax := hmax hitem hlt
    rw [← result_partitionSeen] at hrun
    rcases (partitionSeen_between hlow hle mallocOk fuel st).result _ hrun with heq | ⟨hlo, hhi⟩
    · -- a failed allocation
      obtain rfl : position = -1 := heq
      decide
    · dsimp only at hlo hhi
      omega

/-- **The arithmetic of quick sort is exact** exactly when 32 bits count the bytes before the last
item, and the position after it, where there is one to sort up to, is an index. -/
theorem quickExact_iff (hlow : 0 ≤ low) (hle : low ≤ high) (itemLen : UInt64) :
    QuickExact itemLen low high ↔
      high.toInt * itemLen.toNat < 2 ^ 32 ∧
        (itemLen = 0 ∨ low = high ∨ high.toInt + 1 < 2 ^ 31) := by
  have h0 : 0 ≤ low.toInt := Int32.le_iff_toInt_le.mp hlow
  have h1 : low.toInt ≤ high.toInt := Int32.le_iff_toInt_le.mp hle
  constructor
  · intro h
    refine ⟨h.mul_lt h0 h1, ?_⟩
    by_cases hitem : itemLen = 0
    · exact .inl hitem
    by_cases heq : low = high
    · exact .inr (.inl heq)
    · exact .inr (.inr (h.add_one_lt h0 (Int32.lt_of_le_of_ne hle heq) hitem))
  · rintro ⟨hoff, hmax⟩
    apply quickExact_of_lt h0 h1 hoff
    intro hitem hlt
    apply (hmax.resolve_left hitem).resolve_left
    rintro rfl
    exact Int32.lt_irrefl hlt

end Quick

/-- **The arithmetic of the two sorts**: bubble sort's is exact exactly when there is nothing to
sort, or 32 bits count the items and 64 bits the bytes before the last one; quick sort's, exactly
when 32 bits count the bytes before the last item, and the index after it is not passed. -/
theorem sorts_exact_iff (len itemLen : UInt64) {low high : Int32} (hlow : 0 ≤ low)
    (hle : low ≤ high) :
    (BubbleExact len itemLen ↔
      len = 0 ∨ itemLen = 0 ∨
        len.toNat < 2 ^ 32 ∧ itemLen.toNat * (len.toNat - 1) < 2 ^ 64) ∧
    (QuickExact itemLen low high ↔
      high.toInt * itemLen.toNat < 2 ^ 32 ∧
        (itemLen = 0 ∨ low = high ∨ high.toInt + 1 < 2 ^ 31)) :=
  ⟨bubbleExact_iff len itemLen, quickExact_iff hlow hle itemLen⟩

/-- Seven items of four bytes. -/
theorem sorts_exact_seven : BubbleExact 7 4 ∧ QuickExact 4 0 6 := by
  obtain ⟨hbubble, hquick⟩ := @sorts_exact_iff 7 4 0 6 (by decide) (by decide)
  exact ⟨hbubble.mpr (by decide), hquick.mpr (by decide)⟩

/-- **Arguments that are too large**: more items than the counters reach, an offset of more than
32 bits, and a position after the last index. -/
theorem arguments_too_large :
    ¬ BubbleExact 0x100000000 1 ∧ ¬ QuickExact 0x10000 0 0x10000 ∧ ¬ QuickExact 1 0 0x7FFFFFFF := by
  refine ⟨?_, ?_, ?_⟩
  · rw [bubbleExact_iff]
    decide
  · rw [quickExact_iff (by decide) (by decide)]
    decide
  · rw [quickExact_iff (by decide) (by decide)]
    decide

end HyUtils.Sort
