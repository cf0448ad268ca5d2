import HyUtils.Fifo.Invariant
import HyUtils.Foundation.BoundedQueue

/-!
# The byte fifo is a bounded queue

Each operation of a well-formed fifo acts on the unread bytes as on a queue bounded by the size of
the fifo, whatever the alignment of the two cursors and whether or not they wrapped.

## Main definitions

* `queueStep`: the operations on a bounded queue
* `FifoOp.QueueCall`: the calls with a length below `2 ^ 32`

## Main results

* `hyFifoPut_spec`, `hyFifoGet_spec`, `hyFifoPeek_spec`, `hyFifoUpdateOut_spec`,
  `hyFifoClean_spec`: what each operation does to a well-formed fifo
* `fifo_refines_queue`: runs of the fifo are runs of a bounded queue of its size
-/

namespace HyUtils.Fifo

open Region Ring Runs Words

/-! ## The operations -/

section Operations

variable {context : FifoContext}

/-- The first piece of a read of no bytes is empty. -/
theorem firstLen_zero (size : UInt64) :
    (hyUtilsMinMacro (0 : UInt32).toUInt64 size).toUInt32 = 0 := by
  apply UInt32.toNat_inj.mp
  rw [UInt64.toNat_toUInt32, toNat_hyUtilsMinMacro, UInt32.toNat_toUInt64,
    show (0 : UInt32).toNat = 0 from rfl, Nat.zero_min]

/-- The first piece of a read goes up to the end of the buffer, and the second is the rest. -/
theorem readPieces (h : context.Wf) (hpos : 0 < context.size.toNat) (len : UInt32)
    {lenTmp : UInt32}
    (hlenTmp : (hyUtilsMinMacro len.toUInt64
      (context.size - (context.out &&& (context.size - 1)))).toUInt32 = lenTmp) :
    lenTmp.toNat = firstPiece context.buf (context.out.toNat % context.buf.length) len.toNat ∧
      (len - lenTmp).toNat =
        len.toNat - firstPiece context.buf (context.out.toNat % context.buf.length) len.toNat := by
  have hlen := len.toNat_lt
  have hfirst : lenTmp.toNat =
      firstPiece context.buf (context.out.toNat % context.buf.length) len.toNat := by
    rw [← hlenTmp, UInt64.toNat_toUInt32, toNat_hyUtilsMinMacro, UInt32.toNat_toUInt64,
      h.toNat_size_sub_index hpos, firstPiece, h.length_buf, Nat.mod_eq_of_lt (by omega)]
  have hle : firstPiece context.buf (context.out.toNat % context.buf.length) len.toNat ≤
      len.toNat := min_le_left _ _
  refine ⟨hfirst, ?_⟩
  rw [UInt32.toNat_sub, hfirst]
  omega

/-- The two copies of a read of `n` unread bytes put them at the start of the destination, and fault
exactly when it is shorter. -/
theorem get_copies (h : context.Wf) (buf : List UInt8) {n : ℕ} (hle : n ≤ context.used) :
    ((memcpy buf 0 context.buf (context.out &&& (context.size - 1)).toNat
        (hyUtilsMinMacro (UInt32.ofNat n).toUInt64
          (context.size - (context.out &&& (context.size - 1)))).toUInt32.toNat).bind fun b =>
        memcpy b (hyUtilsMinMacro (UInt32.ofNat n).toUInt64
          (context.size - (context.out &&& (context.size - 1)))).toUInt32.toNat context.buf 0
          (UInt32.ofNat n - (hyUtilsMinMacro (UInt32.ofNat n).toUInt64
            (context.size - (context.out &&& (context.size - 1)))).toUInt32).toNat) =
      if n ≤ buf.length then some (window context.buf context.out.toNat n ++ buf.drop n)
      else none := by
  have hu := h.used_le
  have hsz := h.size_le
  have hn : (UInt32.ofNat n).toNat = n := by
    rw [UInt32.toNat_ofNat', Nat.mod_eq_of_lt (by omega)]
  rcases Nat.eq_zero_or_pos context.size.toNat with h0 | hpos
  · -- a fifo of size 0 has nothing to read
    obtain rfl : n = 0 := by omega
    obtain ⟨-, ho⟩ := h.cursors_of_size h0
    have hi : (context.out &&& (context.size - 1)).toNat = 0 := by
      rw [h.toNat_index, h0, ho]
      rfl
    rw [show UInt32.ofNat 0 = 0 from rfl, firstLen_zero, hi, UInt32.sub_self,
      show (0 : UInt32).toNat = 0 from rfl, memcpy_zero (Nat.zero_le _) (Nat.zero_le _)]
    simp [memcpy_zero]
  · -- the two copies are a two-piece read at the masked cursor
    obtain ⟨hm, hrest⟩ := readPieces h hpos (UInt32.ofNat n) rfl
    rw [hn] at hm hrest
    rw [h.toNat_index, hm, hrest, ← h.length_buf]
    apply copyOut_eq buf context.out.toNat
    · rw [h.length_buf]
      exact hpos
    · rw [h.length_buf]
      exact hle.trans hu

/-- The common part of the reads: the first `min len used` unread bytes are copied, and the copy
faults exactly when the destination is shorter. -/
theorem getDataCom_eq (h : context.Wf) (buf : List UInt8) (len : UInt32) :
    getDataCom context buf len =
      if min len.toNat context.used ≤ buf.length then
        some (window context.buf context.out.toNat (min len.toNat context.used) ++
          buf.drop (min len.toNat context.used), UInt32.ofNat (min len.toNat context.used))
      else none := by
  -- The length is cut to the unread bytes, so it fits 32 bits.
  have hlen : (hyUtilsMinMacro len.toUInt64 (context.in_ - context.out)).toUInt32 =
      UInt32.ofNat (min len.toNat context.used) := by
    apply UInt32.toNat_inj.mp
    rw [UInt64.toNat_toUInt32, toNat_hyUtilsMinMacro, UInt32.toNat_toUInt64, UInt32.toNat_ofNat',
      FifoContext.used]
  have hcopies := get_copies h buf (min_le_right len.toNat context.used)
  rw [getDataCom]
  simp only [hlen, Option.bind_eq_bind]
  rw [← Option.bind_assoc, hcopies]
  split_ifs <;> rfl

/-- The two copies of a write into `n` free cells put the first `n` bytes behind the window. -/
theorem put_copies (h : context.Wf) {buf : List UInt8} {n : ℕ}
    (hle : n ≤ context.size.toNat - context.used) (hbuf : n ≤ buf.length) :
    ∃ ring,
      ((memcpy context.buf (context.in_ &&& (context.size - 1)).toNat buf 0
        (hyUtilsMinMacro (UInt64.ofNat n)
          (context.size - (context.in_ &&& (context.size - 1)))).toNat).bind fun ring =>
        memcpy ring 0 buf (hyUtilsMinMacro (UInt64.ofNat n)
          (context.size - (context.in_ &&& (context.size - 1)))).toNat
          (UInt64.ofNat n - hyUtilsMinMacro (UInt64.ofNat n)
            (context.size - (context.in_ &&& (context.size - 1)))).toNat) = some ring ∧
      ring.length = context.buf.length ∧
      window ring context.out.toNat (context.used + n) = context.contents ++ buf.take n := by
  have hu := h.used_le
  have hsz := h.size_le
  have hn : (UInt64.ofNat n).toNat = n := toNat_ofNat_of_lt (by omega)
  rcases Nat.eq_zero_or_pos context.size.toNat with h0 | hpos
  · -- a fifo of size 0 accepts nothing
    obtain rfl : n = 0 := by omega
    obtain ⟨hi, -⟩ := h.cursors_of_size h0
    have hidx : (context.in_ &&& (context.size - 1)).toNat = 0 := by
      rw [h.toNat_index, h0, hi]
      rfl
    have hm : (hyUtilsMinMacro (UInt64.ofNat 0)
        (context.size - (context.in_ &&& (context.size - 1)))).toNat = 0 := by
      rw [toNat_hyUtilsMinMacro, hn, Nat.zero_min]
    have hr : (UInt64.ofNat 0 - hyUtilsMinMacro (UInt64.ofNat 0)
        (context.size - (context.in_ &&& (context.size - 1)))).toNat = 0 := by
      rw [UInt64.toNat_sub, hm, hn]
    rw [hidx, hm, hr, memcpy_zero (Nat.zero_le _) (Nat.zero_le _), Option.bind_some,
      memcpy_zero (Nat.zero_le _) (Nat.zero_le _)]
    exact ⟨context.buf, rfl, rfl, by simp [FifoContext.contents]⟩
  · -- the two copies are a two-piece write behind the window
    have hm : (hyUtilsMinMacro (UInt64.ofNat n)
        (context.size - (context.in_ &&& (context.size - 1)))).toNat =
          firstPiece context.buf ((context.out.toNat + context.used) % context.buf.length) n := by
      rw [toNat_hyUtilsMinMacro, hn, h.toNat_size_sub_index hpos, firstPiece, h.length_buf,
        h.index_in hpos]
    have hr : (UInt64.ofNat n - hyUtilsMinMacro (UInt64.ofNat n)
        (context.size - (context.in_ &&& (context.size - 1)))).toNat =
          n - firstPiece context.buf
            ((context.out.toNat + context.used) % context.buf.length) n := by
      have hf : firstPiece context.buf
          ((context.out.toNat + context.used) % context.buf.length) n ≤ n := min_le_left _ _
      rw [UInt64.toNat_sub, hm, hn]
      omega
    rw [h.toNat_index, h.index_in hpos, hm, hr, ← h.length_buf]
    exact copyIn_window (by rw [h.length_buf]; exact hpos) (by rw [h.length_buf]; omega)
      (by omega)

/-- **`HyFifoPut`** appends the first `min len (size - used)` bytes of its argument. -/
theorem hyFifoPut_spec (h : context.Wf) (buf : List UInt8) (len : UInt64)
    (hbuf : len.toNat ≤ buf.length) :
    ∃ context', hyFifoPut context buf len =
        some (context', UInt64.ofNat (min len.toNat (context.size.toNat - context.used))) ∧
      context'.Wf ∧ context'.size = context.size ∧ context'.out = context.out ∧
      context'.in_ =
        context.in_ + UInt64.ofNat (min len.toNat (context.size.toNat - context.used)) ∧
      context'.useCnt =
        context.useCnt + UInt64.ofNat (min len.toNat (context.size.toNat - context.used)) ∧
      context'.contents =
        context.contents ++ buf.take (min len.toNat (context.size.toNat - context.used)) := by
  have hu := h.used_le
  have hsz := h.size_le
  have hlen : hyUtilsMinMacro len (context.size - context.in_ + context.out) =
      UInt64.ofNat (min len.toNat (context.size.toNat - context.used)) := by
    apply eq_ofNat_of_toNat
    rw [toNat_hyUtilsMinMacro, h.toNat_free]
  have hle : min len.toNat (context.size.toNat - context.used) ≤
      context.size.toNat - context.used := min_le_right _ _
  have hle' : min len.toNat (context.size.toNat - context.used) ≤ len.toNat := min_le_left _ _
  unfold hyFifoPut
  simp only [hlen]
  generalize min len.toNat (context.size.toNat - context.used) = n at hle hle' ⊢
  have hn : (UInt64.ofNat n).toNat = n := toNat_ofNat_of_lt (by omega)
  -- The cursors may wrap; their distance does not.
  have hused : (context.in_ + UInt64.ofNat n - context.out).toNat = context.used + n := by
    have hi := context.in_.toNat_lt
    have ho := context.out.toNat_lt
    rw [FifoContext.used, UInt64.toNat_sub] at hu hle ⊢
    rw [UInt64.toNat_sub, UInt64.toNat_add, hn]
    omega
  obtain ⟨ring, hring, hlength, hwin⟩ := put_copies h hle (by omega : n ≤ buf.length)
  refine ⟨{ context with
    buf := ring, in_ := context.in_ + UInt64.ofNat n,
    useCnt := context.useCnt + UInt64.ofNat n }, ?_, ?_, rfl, rfl, rfl, rfl, ?_⟩
  · obtain ⟨mid, hmid, hring⟩ := Option.bind_eq_some_iff.mp hring
    simp only [hmid, Option.bind_eq_bind, Option.bind_some, hring]
    rfl
  · refine ⟨h.size_eq, hlength.trans h.length_buf, ?_, fun h0 => ?_⟩
    · rw [FifoContext.used, hused]
      change _ ≤ context.size.toNat
      omega
    · obtain ⟨hi, ho⟩ := h.cursors_of_size h0
      obtain rfl : n = 0 := by
        change context.size.toNat = 0 at h0
        omega
      exact ⟨by simp [hi], ho⟩
  · rw [FifoContext.contents, FifoContext.used, hused]
    exact hwin

/-- The number of bytes a read of `len` takes: the length is truncated to 32 bits first. -/
def readLen (context : FifoContext) (len : UInt64) : ℕ := min (len.toNat % 2 ^ 32) context.used

theorem readLen_le_used (context : FifoContext) (len : UInt64) :
    readLen context len ≤ context.used := min_le_right _ _

theorem readLen_le (context : FifoContext) (len : UInt64) : readLen context len ≤ len.toNat :=
  (min_le_left _ _).trans (Nat.mod_le _ _)

theorem readLen_of_lt {len : UInt64} (context : FifoContext) (h : len.toNat < 2 ^ 32) :
    readLen context len = min len.toNat context.used := by
  rw [readLen, Nat.mod_eq_of_lt h]

@[simp] theorem readLen_zero (context : FifoContext) : readLen context 0 = 0 := Nat.zero_min _

theorem getDataCom_readLen (h : context.Wf) (buf : List UInt8) (len : UInt64) :
    getDataCom context buf len.toUInt32 =
      if readLen context len ≤ buf.length then
        some (context.contents.take (readLen context len) ++ buf.drop (readLen context len),
          UInt32.ofNat (readLen context len))
      else none := by
  rw [getDataCom_eq h, UInt64.toNat_toUInt32, FifoContext.contents,
    take_window (readLen_le_used context len)]
  rfl

theorem toUInt64_readLen (h : context.Wf) (len : UInt64) :
    (UInt32.ofNat (readLen context len)).toUInt64 = UInt64.ofNat (readLen context len) := by
  have hk := readLen_le_used context len
  have hu := h.used_le
  have hs := h.size_le
  apply eq_ofNat_of_toNat
  rw [UInt32.toNat_toUInt64, UInt32.toNat_ofNat', Nat.mod_eq_of_lt (by omega)]

/-- Moving the read cursor over `k` unread bytes drops them. -/
theorem advance_out (h : context.Wf) {k : ℕ} (hk : k ≤ context.used) (useCnt : UInt64) :
    { context with out := context.out + UInt64.ofNat k, useCnt := useCnt }.Wf ∧
      { context with out := context.out + UInt64.ofNat k, useCnt := useCnt }.contents =
        context.contents.drop k := by
  have hu := h.used_le
  have hsz := h.size_le
  have hn : (UInt64.ofNat k).toNat = k := toNat_ofNat_of_lt (by omega)
  -- The read cursor may wrap past the write cursor; their distance shrinks by `k`.
  have hused : (context.in_ - (context.out + UInt64.ofNat k)).toNat = context.used - k := by
    have hi := context.in_.toNat_lt
    have ho := context.out.toNat_lt
    rw [FifoContext.used, UInt64.toNat_sub] at hu hk ⊢
    rw [UInt64.toNat_sub, UInt64.toNat_add, hn]
    omega
  refine ⟨⟨h.size_eq, h.length_buf, ?_, fun h0 => ?_⟩, ?_⟩
  · rw [FifoContext.used, hused]
    change _ ≤ context.size.toNat
    omega
  · obtain ⟨hi, ho⟩ := h.cursors_of_size h0
    obtain rfl : k = 0 := by
      change context.size.toNat = 0 at h0
      omega
    exact ⟨hi, by simp [ho]⟩
  · rw [FifoContext.contents, FifoContext.used, hused]
    rcases Nat.eq_zero_or_pos context.size.toNat with h0 | hpos
    · rw [show context.used = 0 by omega, Nat.zero_sub, window_zero, FifoContext.contents,
        show context.used = 0 by omega, window_zero, List.drop_nil]
    · -- the size divides `2 ^ 64`, so the physical index does not see the wrap
      rw [FifoContext.contents, ← window_advance (by rw [h.length_buf]; exact hu) hk]
      apply window_congr
      change (context.out + UInt64.ofNat k).toNat % context.buf.length = _
      rw [h.length_buf, UInt64.toNat_add, hn, Nat.mod_mod_of_dvd _ (h.size_dvd hpos)]

/-- **`HyFifoGet`** removes and copies the first `readLen` bytes. -/
theorem hyFifoGet_spec (h : context.Wf) (buf : List UInt8) (len : UInt64)
    (hbuf : len.toNat ≤ buf.length) :
    hyFifoGet context buf len =
      some ({ context with
          out := context.out + UInt64.ofNat (readLen context len),
          useCnt := context.useCnt - UInt64.ofNat (readLen context len) },
        context.contents.take (readLen context len) ++ buf.drop (readLen context len),
        UInt64.ofNat (readLen context len)) := by
  unfold hyFifoGet
  split_ifs with h0
  · subst h0
    simp
  · rw [getDataCom_readLen h, if_pos ((readLen_le context len).trans hbuf)]
    simp [toUInt64_readLen h]

/-- **`HyFifoPeek`** copies the first `readLen` bytes. -/
theorem hyFifoPeek_spec (h : context.Wf) (buf : List UInt8) (len : UInt64)
    (hbuf : len.toNat ≤ buf.length) :
    hyFifoPeek context buf len =
      some (context.contents.take (readLen context len) ++ buf.drop (readLen context len),
        UInt64.ofNat (readLen context len)) := by
  unfold hyFifoPeek
  split_ifs with h0
  · subst h0
    simp
  · rw [getDataCom_readLen h, if_pos ((readLen_le context len).trans hbuf)]
    simp [toUInt64_readLen h]

/-- **`HyFifoUpdateOut`** removes the first `readLen` bytes, and faults exactly when they do not
fit its scratch array. -/
theorem hyFifoUpdateOut_spec (h : context.Wf) (len : UInt64) :
    hyFifoUpdateOut context len =
      if readLen context len ≤ 1024 then
        some ({ context with out := context.out + UInt64.ofNat (readLen context len) },
          UInt64.ofNat (readLen context len))
      else none := by
  unfold hyFifoUpdateOut
  by_cases h0 : len = 0
  · subst h0
    simp
  · rw [if_neg h0, getDataCom_readLen h, List.length_replicate]
    split_ifs
    · simp only [Option.bind_eq_bind, Option.bind_some, toUInt64_readLen h]
      rfl
    · rfl

/-- **`HyFifoClean`** empties the fifo. -/
theorem hyFifoClean_spec (h : context.Wf) :
    ∃ context', hyFifoClean context = some context' ∧ context'.Wf ∧ context'.size = context.size ∧
      context'.useCnt = context.useCnt ∧ context'.in_ = 0 ∧ context'.out = 0 ∧
      context'.contents = [] := by
  refine ⟨{ context with buf := List.replicate context.size.toNat 0, in_ := 0, out := 0 }, ?_,
    ⟨h.size_eq, List.length_replicate, ?_, fun _ => ⟨rfl, rfl⟩⟩, rfl, rfl, rfl, rfl, ?_⟩
  · rw [hyFifoClean, memset_all h.length_buf]
    rfl
  · rw [used_of_eq rfl]
    exact Nat.zero_le _
  · rw [FifoContext.contents, used_of_eq rfl, window_zero]

end Operations

/-! ## Refinement -/

/-- The calls on a bounded queue: what the fifo is for. -/
def queueStep {cap : ℕ} (q : BoundedQueue UInt8 cap) :
    FifoOp → Option (BoundedQueue UInt8 cap × FifoOut)
  | .put buf len => some (q.put (buf.take len.toNat), ⟨q.room len.toNat, buf⟩)
  | .get buf len =>
    let k := min len.toNat q.items.length
    some (q.get k, ⟨k, q.items.take k ++ buf.drop k⟩)
  | .peek buf len =>
    let k := min len.toNat q.items.length
    some (q, ⟨k, q.items.take k ++ buf.drop k⟩)
  | .updateOut len =>
    let k := min len.toNat q.items.length
    some (q.get k, ⟨k, []⟩)
  | .clean => some (q.clear, ⟨0, []⟩)

/-- The calls that put, get, peek and clean, each with a buffer of the length passed and a length
below `2 ^ 32`. -/
def FifoOp.QueueCall : FifoOp → Prop
  | .put buf len | .get buf len | .peek buf len => len.toNat ≤ buf.length ∧ len.toNat < 2 ^ 32
  | .updateOut _ => False
  | .clean => True

theorem FifoOp.QueueCall.valid {op : FifoOp} (h : op.QueueCall) : op.Valid := by
  cases op with
  | put | get | peek => exact h.1
  | updateOut | clean => trivial

/-- A well-formed fifo of size `cap` whose unread bytes are the queue. -/
def Represents {cap : ℕ} (context : FifoContext) (q : BoundedQueue UInt8 cap) : Prop :=
  context.Wf ∧ context.size.toNat = cap ∧ context.contents = q.items

theorem Represents.used_eq {cap : ℕ} {context : FifoContext} {q : BoundedQueue UInt8 cap}
    (h : Represents context q) : context.used = q.items.length := by
  rw [← h.2.2, h.1.length_contents]

/-- One call: the fifo and the queue it represents give the same output. -/
theorem represents_step {cap : ℕ} {context : FifoContext} {q : BoundedQueue UInt8 cap}
    (h : Represents context q) (op : FifoOp) (hop : op.QueueCall) :
    ∃ context' q' out, fifoStep context op = some (context', out) ∧
      queueStep q op = some (q', out) ∧ Represents context' q' := by
  obtain ⟨hwf, hcap, hc⟩ := id h
  have hused := h.used_eq
  have hu := hwf.used_le
  have hsz := hwf.size_le
  cases op with
  | put buf len =>
    obtain ⟨hbuf, hlen⟩ := hop
    obtain ⟨context', hput, hwf', hsize, -, -, -, hc'⟩ := hyFifoPut_spec hwf buf len hbuf
    have hroom : min len.toNat (context.size.toNat - context.used) = q.room len.toNat := by
      rw [BoundedQueue.room, hcap, hused]
    rw [hroom] at hput hc'
    have hle : q.room len.toNat ≤ len.toNat := min_le_left _ _
    refine ⟨context', _, _, ?_, rfl, hwf', by rw [hsize, hcap], ?_⟩
    · rw [fifoStep, hput, Option.map_some, toNat_ofNat_of_lt (by omega)]
    · have hl : (buf.take len.toNat).length = len.toNat := by rw [List.length_take]; omega
      rw [BoundedQueue.put_items, hl, List.take_take, min_eq_left hle, hc', hc]
  | get buf len =>
    obtain ⟨hbuf, hlen⟩ := hop
    have hk : readLen context len = min len.toNat q.items.length := by
      rw [readLen_of_lt context hlen, hused]
    have hle := readLen_le_used context len
    obtain ⟨hwf', hc'⟩ := advance_out hwf hle
      (context.useCnt - UInt64.ofNat (readLen context len))
    refine ⟨_, _, _, ?_, rfl, hwf', hcap, ?_⟩
    · rw [fifoStep, hyFifoGet_spec hwf buf len hbuf, Option.map_some,
        toNat_ofNat_of_lt (by omega), hk, hc]
    · rw [hc', BoundedQueue.get_items, hk, hc]
  | peek buf len =>
    obtain ⟨hbuf, hlen⟩ := hop
    have hk : readLen context len = min len.toNat q.items.length := by
      rw [readLen_of_lt context hlen, hused]
    have hle := readLen_le_used context len
    refine ⟨context, q, _, ?_, rfl, h⟩
    rw [fifoStep, hyFifoPeek_spec hwf buf len hbuf, Option.map_some,
      toNat_ofNat_of_lt (by omega), hk, hc]
  | updateOut len => exact hop.elim
  | clean =>
    obtain ⟨context', hclean, hwf', hsize, -, -, -, hc'⟩ := hyFifoClean_spec hwf
    exact ⟨context', q.clear, _, by rw [fifoStep, hclean, Option.map_some], rfl, hwf',
      by rw [hsize, hcap], hc'⟩

/-- **A fifo is a bounded queue of its size**: after a request of at most `2 ^ 31` bytes, every
run of puts, gets, peeks and cleans gives the outputs of the queue of that capacity, and leaves the
queue's items unread, however often the counters wrap. -/
theorem fifo_refines_queue {config : HyFifoConfig} {contextOk bufOk : Bool}
    {context : FifoContext} (hcreate : hyFifoCreate config contextOk bufOk = some context)
    (hsize : config.size.toNat ≤ 2 ^ 31) {ops : List FifoOp} (hops : ∀ op ∈ ops, op.QueueCall) :
    config.size.toNat ≤ context.size.toNat ∧
      ∃ (context' : FifoContext) (q : BoundedQueue UInt8 context.size.toNat)
        (outs : List FifoOut),
        run fifoStep context ops = some (context', outs) ∧
        run queueStep (BoundedQueue.empty UInt8 context.size.toNat) ops = some (q, outs) ∧
        context'.contents = q.items := by
  obtain ⟨hwf, hsz, hc, -⟩ := hyFifoCreate_wf hcreate
  refine ⟨?_, ?_⟩
  · obtain ⟨k, -, he, hle, -⟩ := createSize_of_le hsize
    rw [hsz, he]
    exact hle
  · obtain ⟨context', q, outs, hrun, hqueue, hrep⟩ :=
      run_simulation Represents FifoOp.QueueCall (fun _ _ op h hop => represents_step h op hop)
        (show Represents context (BoundedQueue.empty UInt8 context.size.toNat) from ⟨hwf, rfl, hc⟩)
        hops
    exact ⟨context', q, outs, hrun, hqueue, hrep.2.2⟩

/-- A request of 5 bytes is rounded to 8; the second write wraps, and is cut to the room left. -/
theorem fifo_refines_queue_five :
    (5 : UInt64).toNat ≤ (8 : UInt64).toNat ∧
      ∃ (context' : FifoContext) (q : BoundedQueue UInt8 (8 : UInt64).toNat)
        (outs : List FifoOut),
        run fifoStep { buf := List.replicate 8 0, size := 8, useCnt := 0, in_ := 0, out := 0 }
          [.put [1, 2, 3, 4, 5, 6] 6, .get [0, 0, 0, 0] 4, .put [7, 8, 9, 10, 11, 12, 13] 7,
            .peek [0, 0] 2, .clean] = some (context', outs) ∧
        run queueStep (BoundedQueue.empty UInt8 (8 : UInt64).toNat)
          [.put [1, 2, 3, 4, 5, 6] 6, .get [0, 0, 0, 0] 4, .put [7, 8, 9, 10, 11, 12, 13] 7,
            .peek [0, 0] 2, .clean] = some (q, outs) ∧
        context'.contents = q.items :=
  fifo_refines_queue (show hyFifoCreate ⟨5⟩ true true = some _ from rfl) (by decide) (by
    intro op hop
    simp only [List.mem_cons, List.not_mem_nil, or_false] at hop
    rcases hop with rfl | rfl | rfl | rfl | rfl <;> simp [FifoOp.QueueCall])

end HyUtils.Fifo
