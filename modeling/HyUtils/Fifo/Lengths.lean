import HyUtils.Fifo.Info

/-!
# The lengths a fifo is given

The functions of the module take lengths of type `size_t`; the helper the reads share, and the one
that rounds the requested size, take them as `uint32_t`. In the states that calls can reach, the
reads are exact unless the truncated length is below the unread bytes, and a request keeps its
capacity up to `2 ^ 31`.

## Main definitions

* `Reachable context`: the fifos that calls of the module reach
* `ReadsUnread`: the value a read has to return
* `Discards`: what `HyFifoUpdateOut` has to do
* `SizedFor`: the size a request has to get

## Main results

* `read_exact_iff`: `HyFifoGet` and `HyFifoPeek`
* `updateOut_exact_iff`: `HyFifoUpdateOut`
* `create_sized_iff`: `HyFifoCreate`
-/

namespace HyUtils.Fifo

open Runs Words

/-! ## The fifos that are reached -/

/-- A fifo that was created and went through calls whose buffers have the lengths passed. -/
def Reachable (context : FifoContext) : Prop :=
  ∃ config contextOk bufOk start ops outs,
    hyFifoCreate config contextOk bufOk = some start ∧ (∀ op ∈ ops, FifoOp.Valid op) ∧
      run fifoStep start ops = some (context, outs)

theorem Reachable.wf {context : FifoContext} (h : Reachable context) : context.Wf := by
  obtain ⟨_, _, _, _, _, _, hcreate, hops, hrun⟩ := h
  exact run_invariant (fun _ _ _ _ h hop hs => fifoStep_wf h hop hs) (hyFifoCreate_wf hcreate).1
    hops hrun

theorem Reachable.create {config : HyFifoConfig} {contextOk bufOk : Bool} {context : FifoContext}
    (h : hyFifoCreate config contextOk bufOk = some context) : Reachable context :=
  ⟨config, contextOk, bufOk, context, [], [], h, fun _ hop => absurd hop List.not_mem_nil, rfl⟩

theorem Reachable.step {context context' : FifoContext} {op : FifoOp} {out : FifoOut}
    (h : Reachable context) (hop : op.Valid) (hs : fifoStep context op = some (context', out)) :
    Reachable context' := by
  obtain ⟨config, contextOk, bufOk, start, ops, outs, hcreate, hops, hrun⟩ := h
  refine ⟨config, contextOk, bufOk, start, ops ++ [op], outs ++ [out], hcreate, ?_, ?_⟩
  · intro op' hmem
    rcases List.mem_append.mp hmem with hmem | hmem
    · exact hops op' hmem
    · obtain rfl := List.mem_singleton.mp hmem
      exact hop
  · apply run_append_eq_some.mpr
    exact ⟨context, outs, [out], hrun, run_cons_eq_some.mpr ⟨context', out, [], hs, rfl, rfl⟩, rfl⟩

/-! ## Reads -/

section Reads

variable {context : FifoContext}

/-- The truncation is harmless when the truncated length still reaches the unread bytes. -/
theorem readLen_eq_min_iff (h : context.Wf) (len : UInt64) :
    readLen context len = min len.toNat context.used ↔
      len.toNat < 2 ^ 32 ∨ context.used ≤ len.toNat % 2 ^ 32 := by
  have hu := h.used_le
  have hs := h.size_le
  rw [readLen]
  rcases Nat.lt_or_ge len.toNat (2 ^ 32) with hlt | hge
  · rw [Nat.mod_eq_of_lt hlt]
    exact iff_of_true rfl (.inl hlt)
  · -- a length of more than 32 bits reaches all unread bytes, before it is truncated
    rw [min_eq_right (show context.used ≤ len.toNat by omega), min_eq_right_iff]
    exact (or_iff_right (by omega)).symm

/-- The returned value is the smaller of the length and the number of unread bytes, and is not 0
when there are any. -/
def ReadsUnread (context : FifoContext) (len : UInt64) (ret : Option UInt64) : Prop :=
  ∃ n, ret = some n ∧ n.toNat = min len.toNat context.used ∧ (0 < context.used → n ≠ 0)

theorem readsUnread_iff (h : context.Wf) {len : UInt64} (hlen : 0 < len) :
    ReadsUnread context len (some (UInt64.ofNat (readLen context len))) ↔
      len.toNat < 2 ^ 32 ∨ context.used ≤ len.toNat % 2 ^ 32 := by
  have hk := (readLen_le_used context len).trans h.used_le
  have hs := h.size_le
  have hn : (UInt64.ofNat (readLen context len)).toNat = readLen context len :=
    toNat_ofNat_of_lt (by omega)
  have hpos : 0 < len.toNat := UInt64.lt_iff_toNat_lt.mp hlen
  rw [← readLen_eq_min_iff h len]
  constructor
  · rintro ⟨n, hret, hmin, -⟩
    obtain rfl := Option.some.inj hret
    rw [← hn, hmin]
  · intro heq
    refine ⟨_, rfl, hn.trans heq, fun hused h0 => ?_⟩
    -- a length and an unread byte: the smaller of the two numbers is not 0
    have hzero : readLen context len = 0 := by rw [← hn, h0]; rfl
    omega

theorem getDataCom_fits (h : context.Wf) {buf : List UInt8} {len : UInt64}
    (hbuf : min len.toNat context.used ≤ buf.length) :
    getDataCom context buf len.toUInt32 =
      some (context.contents.take (readLen context len) ++ buf.drop (readLen context len),
        UInt32.ofNat (readLen context len)) := by
  have hle : readLen context len ≤ buf.length :=
    (le_min (readLen_le context len) (readLen_le_used context len)).trans hbuf
  rw [getDataCom_readLen h, if_pos hle]

theorem hyFifoGet_ret (h : context.Wf) {buf : List UInt8} {len : UInt64}
    (hbuf : min len.toNat context.used ≤ buf.length) (hlen : 0 < len) :
    (hyFifoGet context buf len).map (·.2.2) = some (UInt64.ofNat (readLen context len)) := by
  rw [hyFifoGet, if_neg (UInt64.ne_of_lt hlen).symm, getDataCom_fits h hbuf]
  simp [toUInt64_readLen h]

theorem hyFifoPeek_ret (h : context.Wf) {buf : List UInt8} {len : UInt64}
    (hbuf : min len.toNat context.used ≤ buf.length) (hlen : 0 < len) :
    (hyFifoPeek context buf len).map (·.2) = some (UInt64.ofNat (readLen context len)) := by
  rw [hyFifoPeek, if_neg (UInt64.ne_of_lt hlen).symm, getDataCom_fits h hbuf]
  simp [toUInt64_readLen h]

/-- **The reads return the unread bytes asked for**, in a fifo that calls reach and with a buffer
that takes these bytes, exactly when the length fits 32 bits or its low 32 bits reach the unread
bytes. -/
theorem read_exact_iff (h : Reachable context) (buf : List UInt8) (len : UInt64) (hlen : 0 < len)
    (hbuf : min len.toNat context.used ≤ buf.length) :
    (ReadsUnread context len ((hyFifoGet context buf len).map (·.2.2)) ↔
        len.toNat < 2 ^ 32 ∨ context.used ≤ len.toNat % 2 ^ 32) ∧
      (ReadsUnread context len ((hyFifoPeek context buf len).map (·.2)) ↔
        len.toNat < 2 ^ 32 ∨ context.used ≤ len.toNat % 2 ^ 32) := by
  rw [hyFifoGet_ret h.wf hbuf hlen, hyFifoPeek_ret h.wf hbuf hlen]
  exact ⟨readsUnread_iff h.wf hlen, readsUnread_iff h.wf hlen⟩

theorem exists_three_unread : ∃ context, Reachable context ∧ context.used = 3 ∧
    context = { buf := [1, 2, 3, 0, 0, 0, 0, 0], size := 8, useCnt := 3, in_ := 3, out := 0 } := by
  refine ⟨_, ?_, ?_, rfl⟩
  · apply Reachable.step (Reachable.create (show hyFifoCreate ⟨8⟩ true true = some _ from rfl))
      (show FifoOp.Valid (.put [1, 2, 3] 3) from Nat.le_refl 3)
    rfl
  · rfl

/-- Three unread bytes, and a read of `2 ^ 32` bytes returns 0: its low 32 bits are all zero. -/
theorem read_returns_zero : ∃ context, Reachable context ∧ context.used = 3 ∧
    (hyFifoGet context [0, 0, 0] 0x100000000).map (·.2.2) = some 0 ∧
    (hyFifoPeek context [0, 0, 0] 0x100000000).map (·.2) = some 0 := by
  obtain ⟨context, hreach, hused, rfl⟩ := exists_three_unread
  exact ⟨_, hreach, hused, rfl, rfl⟩

theorem read_exact_iff_three : ∃ context, Reachable context ∧
    (ReadsUnread context 2 ((hyFifoGet context [0, 0] 2).map (·.2.2)) ↔
        (2 : UInt64).toNat < 2 ^ 32 ∨ context.used ≤ (2 : UInt64).toNat % 2 ^ 32) ∧
      (ReadsUnread context 2 ((hyFifoPeek context [0, 0] 2).map (·.2)) ↔
        (2 : UInt64).toNat < 2 ^ 32 ∨ context.used ≤ (2 : UInt64).toNat % 2 ^ 32) := by
  obtain ⟨context, hreach, -, -⟩ := exists_three_unread
  exact ⟨context, hreach,
    read_exact_iff hreach [0, 0] 2 (by decide) (min_le_left _ _)⟩

end Reads

/-! ## Discarding -/

section Discarding

variable {context : FifoContext}

/-- `HyFifoUpdateOut` stays within its scratch array, returns the smaller of the length and the
number of unread bytes, and discards that many of them. -/
def Discards (context : FifoContext) (len : UInt64) : Prop :=
  ∃ context' n, hyFifoUpdateOut context len = some (context', n) ∧
    n.toNat = min len.toNat context.used ∧
    context'.contents = context.contents.drop (min len.toNat context.used)

/-- **`HyFifoUpdateOut` discards what it is asked to**, in a fifo that calls reach, exactly when
that fits its scratch array of 1024 bytes and the truncated length still reaches it. -/
theorem updateOut_exact_iff (h : Reachable context) (len : UInt64) :
    Discards context len ↔
      min len.toNat context.used ≤ 1024 ∧
        (len.toNat < 2 ^ 32 ∨ context.used ≤ len.toNat % 2 ^ 32) := by
  have hk := (readLen_le_used context len).trans h.wf.used_le
  have hs := h.wf.size_le
  have hn : (UInt64.ofNat (readLen context len)).toNat = readLen context len :=
    toNat_ofNat_of_lt (by omega)
  rw [Discards, ← readLen_eq_min_iff h.wf len, hyFifoUpdateOut_spec h.wf]
  constructor
  · rintro ⟨context', n, hsome, hmin, -⟩
    by_cases hfit : readLen context len ≤ 1024
    · rw [if_pos hfit] at hsome
      obtain ⟨-, rfl⟩ := Prod.mk.inj (Option.some.inj hsome)
      have heq : readLen context len = min len.toNat context.used := hn.symm.trans hmin
      exact ⟨heq ▸ hfit, heq⟩
    · -- the copy leaves the scratch array
      rw [if_neg hfit] at hsome
      cases hsome
  · rintro ⟨hfit, heq⟩
    rw [heq, if_pos hfit, ← heq]
    exact ⟨_, _, rfl, hn, (advance_out h.wf (readLen_le_used context len) context.useCnt).2⟩

/-- 1025 unread bytes, discarded at once, leave the scratch array. -/
theorem updateOut_overruns : ∃ context, Reachable context ∧ context.used = 1025 ∧
    hyFifoUpdateOut context 1025 = none := by
  have hcreate : hyFifoCreate ⟨2048⟩ true true = some _ := rfl
  obtain ⟨hwf, hsize, hnil, -⟩ := hyFifoCreate_wf hcreate
  have hzero := hwf.length_contents
  rw [hnil, List.length_nil] at hzero
  have hbuf : (1025 : UInt64).toNat ≤ (List.replicate 1025 (7 : UInt8)).length :=
    List.length_replicate.ge
  obtain ⟨context, hput, hwf', -, -, -, -, hcont⟩ := hyFifoPut_spec hwf _ 1025 hbuf
  have hmin : min (1025 : UInt64).toNat ((createSize 2048).toNat - 0) = 1025 := rfl
  rw [hsize, ← hzero, hmin] at hput hcont
  have hused : context.used = 1025 := by
    rw [← hwf'.length_contents, hcont, hnil, List.nil_append, List.take_replicate,
      List.length_replicate]
    rfl
  refine ⟨context, ?_, hused, ?_⟩
  · apply (Reachable.create hcreate).step (show (FifoOp.put _ 1025).Valid from hbuf)
    rw [fifoStep, hput, Option.map_some]
  · have hread : readLen context 1025 = 1025 := by
      rw [readLen, hused]
      rfl
    rw [hyFifoUpdateOut_spec hwf', hread, if_neg (by decide)]

theorem updateOut_exact_iff_three : ∃ context, Reachable context ∧
    (Discards context 2 ↔
      min (2 : UInt64).toNat context.used ≤ 1024 ∧
        ((2 : UInt64).toNat < 2 ^ 32 ∨ context.used ≤ (2 : UInt64).toNat % 2 ^ 32)) := by
  obtain ⟨context, hreach, -, -⟩ := exists_three_unread
  exact ⟨context, hreach, updateOut_exact_iff hreach 2⟩

end Discarding

/-! ## Creation -/

/-- A power of two that is at least the requested size, and less than twice a request that is not
empty. -/
def SizedFor (config : HyFifoConfig) (context : FifoContext) : Prop :=
  (∃ k, context.size.toNat = 2 ^ k) ∧ config.size.toNat ≤ context.size.toNat ∧
    (0 < config.size.toNat → context.size.toNat < 2 * config.size.toNat)

/-- The size of a fifo is a power of two below `2 ^ 32`, so a larger request is not met. -/
theorem sizedFor_createSize_iff {config : HyFifoConfig} {context : FifoContext}
    (h : context.size = createSize config.size) :
    SizedFor config context ↔ config.size.toNat ≤ 2 ^ 31 := by
  rw [SizedFor, h]
  constructor
  · rintro ⟨⟨j, hj⟩, hle, -⟩
    rcases createSize_eq config.size with h0 | ⟨k, hk, hpow⟩
    · -- size 0 is no power of two
      rw [h0] at hj
      exact absurd hj.symm (Nat.two_pow_pos j).ne'
    · rw [hpow] at hle
      exact hle.trans (Nat.pow_le_pow_right (Nat.succ_pos 1) hk)
  · intro hle
    obtain ⟨k, -, hpow, hge, hlt⟩ := createSize_of_le hle
    rw [hpow]
    exact ⟨⟨k, rfl⟩, hge, hlt⟩

/-- **A fifo has the capacity requested** exactly when an allocation fails, so that there is none,
or at most `2 ^ 31` bytes are requested. -/
theorem create_sized_iff (config : HyFifoConfig) (contextOk bufOk : Bool) :
    (∀ context, hyFifoCreate config contextOk bufOk = some context → SizedFor config context) ↔
      (contextOk = true → bufOk = true → config.size.toNat ≤ 2 ^ 31) := by
  constructor
  · rintro hall rfl rfl
    exact (sizedFor_createSize_iff rfl).mp (hall _ rfl)
  · intro hle context hcreate
    obtain ⟨-, hsize, -⟩ := hyFifoCreate_wf hcreate
    unfold hyFifoCreate at hcreate
    split_ifs at hcreate with hok
    obtain ⟨hcontext, hbuf⟩ := (Bool.and_eq_true _ _).mp hok
    exact (sizedFor_createSize_iff hsize).mpr (hle hcontext hbuf)

/-- A request of `2 ^ 31 + 1` bytes gives a fifo of size 0, and one of `2 ^ 32` a fifo of size 1. -/
theorem create_too_small :
    (∃ context, hyFifoCreate ⟨0x80000001⟩ true true = some context ∧ context.size = 0) ∧
      ∃ context, hyFifoCreate ⟨0x100000000⟩ true true = some context ∧ context.size = 1 :=
  ⟨⟨_, rfl, by decide⟩, ⟨_, rfl, by decide⟩⟩

end HyUtils.Fifo
