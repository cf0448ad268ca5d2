import HyUtils.Fifo.Refinement

/-!
# The counts a fifo reports

`HyFifoGetInfo` reports the used length from the counter `use_cnt` and the free length from an
expression of its own. The counter is in step with the cursors exactly as long as
`HyFifoUpdateOut` and `HyFifoClean` discard nothing, and the free length is the room a write has
exactly when the read cursor is a multiple of `2 ^ 63`.

## Main definitions

* `KeepsCount`: the calls that keep `use_cnt` in step with the cursors
* `FifoOp.Transfer`: the puts and gets

## Main results

* `fifoStep_wf`: every call keeps a fifo well formed
* `usedLen_iff_keepsCount`: the reported used length along a run
* `freeLen_iff_out`: the reported free length after puts and gets
-/

namespace HyUtils.Fifo

open Runs Words

theorem fifoStep_wf {context context' : FifoContext} {op : FifoOp} {out : FifoOut}
    (h : context.Wf) (hop : op.Valid) (hs : fifoStep context op = some (context', out)) :
    context'.Wf := by
  have hk := readLen_le_used context
  cases op with
  | put buf len =>
    obtain ⟨c, hput, hwf, -⟩ := hyFifoPut_spec h buf len hop
    rw [fifoStep, hput] at hs
    obtain ⟨rfl, -⟩ := Prod.mk.inj (Option.some.inj hs)
    exact hwf
  | get buf len =>
    rw [fifoStep, hyFifoGet_spec h buf len hop] at hs
    obtain ⟨rfl, -⟩ := Prod.mk.inj (Option.some.inj hs)
    exact (advance_out h (hk len) _).1
  | peek buf len =>
    rw [fifoStep, hyFifoPeek_spec h buf len hop] at hs
    obtain ⟨rfl, -⟩ := Prod.mk.inj (Option.some.inj hs)
    exact h
  | updateOut len =>
    rw [fifoStep, hyFifoUpdateOut_spec h] at hs
    split_ifs at hs
    · obtain ⟨rfl, -⟩ := Prod.mk.inj (Option.some.inj hs)
      exact (advance_out h (hk len) context.useCnt).1
    · cases hs
  | clean =>
    obtain ⟨c, hclean, hwf, -⟩ := hyFifoClean_spec h
    rw [fifoStep, hclean] at hs
    obtain ⟨rfl, -⟩ := Prod.mk.inj (Option.some.inj hs)
    exact hwf

/-! ## The used length -/

/-- The reported used length is the number of unread bytes. -/
def UsedLenExact (context : FifoContext) : Prop :=
  hyFifoGetInfo context .usedLen = some (context.in_ - context.out)

theorem usedLenExact_iff {context : FifoContext} :
    UsedLenExact context ↔ context.useCnt = context.in_ - context.out := by
  rw [UsedLenExact, hyFifoGetInfo, Option.some.injEq]

theorem hyFifoCreate_usedLen {config : HyFifoConfig} {contextOk bufOk : Bool}
    {context : FifoContext} (hcreate : hyFifoCreate config contextOk bufOk = some context) :
    UsedLenExact context := by
  obtain ⟨-, -, -, hcnt, hin, hout⟩ := hyFifoCreate_wf hcreate
  rw [usedLenExact_iff, hcnt, hin, hout]
  rfl

/-- A call that keeps the counter in step: not an `HyFifoUpdateOut` with a length to discard nor
an `HyFifoClean`, of a fifo with unread bytes. -/
def KeepsCount (context : FifoContext) : FifoOp → Prop
  | .put _ _ | .get _ _ | .peek _ _ => True
  | .updateOut len => context.in_ = context.out ∨ len.toNat % 2 ^ 32 = 0
  | .clean => context.in_ = context.out

theorem used_eq_zero_iff {context : FifoContext} :
    context.used = 0 ↔ context.in_ = context.out := by
  refine ⟨fun h => ?_, used_of_eq⟩
  have hz : context.in_ - context.out = 0 := UInt64.toNat_inj.mp h
  rwa [UInt64.sub_eq_iff_eq_add, UInt64.zero_add] at hz

theorem readLen_eq_zero_iff {context : FifoContext} {len : UInt64} :
    readLen context len = 0 ↔ context.in_ = context.out ∨ len.toNat % 2 ^ 32 = 0 := by
  rw [readLen, ← used_eq_zero_iff]
  omega

/-- The cursor moves and the counter does not, so that the counter stays in step only when nothing
is discarded. -/
theorem usedLenExact_updateOut_iff {context : FifoContext} (h : context.Wf)
    (hused : UsedLenExact context) (len : UInt64) :
    (∃ context' out, fifoStep context (.updateOut len) = some (context', out) ∧
      UsedLenExact context') ↔ KeepsCount context (.updateOut len) := by
  rw [usedLenExact_iff] at hused
  rw [KeepsCount, ← readLen_eq_zero_iff, fifoStep, hyFifoUpdateOut_spec h]
  have hk := (readLen_le_used context len).trans h.used_le
  have hsz := h.size_le
  constructor
  · rintro ⟨context', out, hs, hused'⟩
    split_ifs at hs with hfit
    · obtain ⟨rfl, -⟩ := Prod.mk.inj (Option.some.inj hs)
      have hsub : context.in_ - context.out =
          context.in_ - (context.out + UInt64.ofNat (readLen context len)) := by
        rw [← hused]
        exact usedLenExact_iff.mp hused'
      have hz : UInt64.ofNat (readLen context len) = 0 := by grind
      rw [← toNat_ofNat_of_lt (show readLen context len < 2 ^ 64 by omega), hz]
      rfl
    · cases hs
  · intro hz
    rw [hz, if_pos (Nat.zero_le _)]
    refine ⟨_, _, rfl, usedLenExact_iff.mpr ?_⟩
    dsimp only
    rw [hused]
    simp

/-- The cursors are reset and the counter is not. -/
theorem usedLenExact_clean_iff {context : FifoContext} (h : context.Wf)
    (hused : UsedLenExact context) :
    (∃ context' out, fifoStep context .clean = some (context', out) ∧ UsedLenExact context') ↔
      KeepsCount context .clean := by
  rw [usedLenExact_iff] at hused
  obtain ⟨c, hclean, -, -, hcnt, hin, hout, -⟩ := hyFifoClean_spec h
  have hstep : fifoStep context .clean = some (c, ⟨0, []⟩) := by
    rw [fifoStep, hclean, Option.map_some]
  have hused' : UsedLenExact c ↔ context.in_ = context.out := by
    rw [usedLenExact_iff, hcnt, hin, hout, hused, UInt64.sub_self, UInt64.sub_eq_iff_eq_add,
      UInt64.zero_add]
  rw [KeepsCount, ← hused', hstep]
  constructor
  · rintro ⟨c', out, hs, hc'⟩
    obtain ⟨rfl, -⟩ := Prod.mk.inj (Option.some.inj hs)
    exact hc'
  · intro hc
    exact ⟨c, _, rfl, hc⟩

/-- One call: exactly those that discard nothing behind the counter's back complete with the
counter in step. -/
theorem usedLenExact_step {context : FifoContext} (h : context.Wf) (hused : UsedLenExact context)
    (op : FifoOp) (hop : op.Valid) :
    (∃ context' out, fifoStep context op = some (context', out) ∧ UsedLenExact context') ↔
      KeepsCount context op := by
  have hcount := usedLenExact_iff.mp hused
  cases op with
  | put buf len =>
    obtain ⟨c, hput, -, -, hout, hin, hcnt, -⟩ := hyFifoPut_spec h buf len hop
    refine iff_of_true ⟨c, _, by rw [fifoStep, hput, Option.map_some], ?_⟩ trivial
    rw [usedLenExact_iff, hcnt, hin, hout, hcount]
    grind
  | get buf len =>
    refine iff_of_true ⟨_, _, by rw [fifoStep, hyFifoGet_spec h buf len hop, Option.map_some], ?_⟩
      trivial
    rw [usedLenExact_iff]
    dsimp only
    rw [hcount]
    grind
  | peek buf len =>
    exact iff_of_true ⟨context, _, by rw [fifoStep, hyFifoPeek_spec h buf len hop, Option.map_some],
      hused⟩ trivial
  | updateOut len => exact usedLenExact_updateOut_iff h hused len
  | clean => exact usedLenExact_clean_iff h hused

/-- **The used length along a run**: every call of the run completes and leaves the reported used
length at the number of unread bytes, exactly when no `HyFifoUpdateOut` or `HyFifoClean` of the run
discards anything. -/
theorem usedLen_iff_keepsCount {config : HyFifoConfig} {contextOk bufOk : Bool}
    {context : FifoContext} (hcreate : hyFifoCreate config contextOk bufOk = some context)
    {ops : List FifoOp} (hops : ∀ op ∈ ops, op.Valid) :
    UsedLenExact context ∧
      (AllSteps fifoStep (fun _ _ context' _ => UsedLenExact context') context ops ↔
        EachStep fifoStep KeepsCount context ops) := by
  obtain ⟨hwf, -⟩ := hyFifoCreate_wf hcreate
  have hused := hyFifoCreate_usedLen hcreate
  exact ⟨hused, allSteps_iff_eachStep (fun context => context.Wf ∧ UsedLenExact context)
    (fun _ _ _ _ h hop hs hQ => ⟨fifoStep_wf h.1 hop hs, hQ⟩)
    (fun _ op h hop => usedLenExact_step h.1 h.2 op hop) ⟨hwf, hused⟩ hops⟩

/-- The counter drifts: one byte discarded by `HyFifoUpdateOut` of three written is still
counted. -/
theorem usedLen_drifts :
    ∃ context context' outs, hyFifoCreate ⟨8⟩ true true = some context ∧
      run fifoStep context [.put [1, 2, 3] 3, .updateOut 1] = some (context', outs) ∧
      hyFifoGetInfo context' .usedLen = some 3 ∧ context'.in_ - context'.out = 2 := by
  refine ⟨{ buf := List.replicate 8 0, size := 8, useCnt := 0, in_ := 0, out := 0 },
    { buf := [1, 2, 3, 0, 0, 0, 0, 0], size := 8, useCnt := 3, in_ := 3, out := 1 },
    [⟨3, [1, 2, 3]⟩, ⟨1, []⟩], ?_, ?_, ?_, ?_⟩ <;> decide +kernel

theorem usedLen_iff_keepsCount_put_get :
    UsedLenExact { buf := List.replicate 8 0, size := 8, useCnt := 0, in_ := 0, out := 0 } ∧
      (AllSteps fifoStep (fun _ _ context' _ => UsedLenExact context')
          { buf := List.replicate 8 0, size := 8, useCnt := 0, in_ := 0, out := 0 }
          [.put [1, 2, 3] 3, .get [0, 0] 2] ↔
        EachStep fifoStep KeepsCount
          { buf := List.replicate 8 0, size := 8, useCnt := 0, in_ := 0, out := 0 }
          [.put [1, 2, 3] 3, .get [0, 0] 2]) :=
  usedLen_iff_keepsCount (show hyFifoCreate ⟨8⟩ true true = some _ from rfl) (by
    intro op hop
    simp only [List.mem_cons, List.not_mem_nil, or_false] at hop
    rcases hop with rfl | rfl <;> simp [FifoOp.Valid])

/-! ## The free length -/

/-- The puts and gets, each with a buffer of the length passed. -/
def FifoOp.Transfer : FifoOp → Prop
  | .put buf len | .get buf len => len.toNat ≤ buf.length
  | .peek _ _ | .updateOut _ | .clean => False

theorem FifoOp.Transfer.valid {op : FifoOp} (h : op.Transfer) : op.Valid := by
  cases op <;> first | exact h | exact h.elim

/-- What puts and gets keep. -/
theorem transfer_step {context context' : FifoContext} {op : FifoOp} {out : FifoOut}
    (h : context.Wf ∧ UsedLenExact context) (hop : op.Transfer)
    (hs : fifoStep context op = some (context', out)) : context'.Wf ∧ UsedLenExact context' := by
  have hkeep : KeepsCount context op := by cases op <;> trivial
  obtain ⟨c, o, hs', hused⟩ := (usedLenExact_step h.1 h.2 op hop.valid).mpr hkeep
  obtain ⟨rfl, -⟩ := Prod.mk.inj (Option.some.inj (hs'.symm.trans hs))
  exact ⟨fifoStep_wf h.1 hop.valid hs, hused⟩

/-- The reported free length is what a write of at least the size of the fifo is accepted. -/
def FreeLenExact (context : FifoContext) : Prop :=
  ∀ (buf : List UInt8) (len : UInt64), len.toNat ≤ buf.length → context.size ≤ len →
    ∃ context' ret, hyFifoPut context buf len = some (context', ret) ∧
      hyFifoGetInfo context .freeLen = some ret

/-- The three reported lengths add up. -/
def LengthsAddUp (context : FifoContext) : Prop :=
  ∃ total used free, hyFifoGetInfo context .totalLen = some total ∧
    hyFifoGetInfo context .usedLen = some used ∧ hyFifoGetInfo context .freeLen = some free ∧
    used.toNat + free.toNat = total.toNat

/-- The reported free length is the room left exactly when twice the read cursor vanishes. -/
theorem free_eq_iff {context : FifoContext} (h : context.Wf) :
    context.size - (context.in_ + context.out) =
        UInt64.ofNat (context.size.toNat - context.used) ↔ context.out.toNat % 2 ^ 63 = 0 := by
  have hfree : context.size - context.in_ + context.out =
      UInt64.ofNat (context.size.toNat - context.used) := eq_ofNat_of_toNat h.toNat_free
  -- The code subtracts `out` where the room has it added: the two differ by twice `out`.
  have hdouble : context.out + context.out = 0 ↔ context.out.toNat % 2 ^ 63 = 0 := by
    rw [← UInt64.toNat_inj, UInt64.toNat_add, show (0 : UInt64).toNat = 0 from rfl]
    omega
  rw [← hfree, ← hdouble]
  grind

theorem freeLenExact_iff {context : FifoContext} (h : context.Wf) :
    FreeLenExact context ↔ context.out.toNat % 2 ^ 63 = 0 := by
  have hroom : ∀ len : UInt64, context.size ≤ len →
      min len.toNat (context.size.toNat - context.used) = context.size.toNat - context.used := by
    intro len hlen
    have := UInt64.le_iff_toNat_le.mp hlen
    omega
  rw [← free_eq_iff h]
  constructor
  · -- try a write of exactly the size
    intro hexact
    obtain ⟨c, ret, hput, hinfo⟩ := hexact (List.replicate context.size.toNat 0) context.size
      (by rw [List.length_replicate]) (UInt64.le_refl _)
    obtain ⟨c', hput', -⟩ := hyFifoPut_spec h (List.replicate context.size.toNat 0) context.size
      (by rw [List.length_replicate])
    rw [hput, hroom _ (UInt64.le_refl _)] at hput'
    obtain ⟨-, rfl⟩ := Prod.mk.inj (Option.some.inj hput')
    exact Option.some.inj hinfo
  · intro hfree buf len hbuf hlen
    obtain ⟨c, hput, -⟩ := hyFifoPut_spec h buf len hbuf
    rw [hroom len hlen] at hput
    exact ⟨c, _, hput, congrArg some hfree⟩

theorem lengthsAddUp_of_free {context : FifoContext} (h : context.Wf)
    (hused : UsedLenExact context)
    (hfree : context.size - (context.in_ + context.out) =
      UInt64.ofNat (context.size.toNat - context.used)) : LengthsAddUp context := by
  have hu := h.used_le
  have hs := h.size_le
  refine ⟨_, _, _, rfl, hused, congrArg some hfree, ?_⟩
  rw [toNat_ofNat_of_lt (by omega)]
  change context.used + _ = _
  omega

/-- **The free length after puts and gets** is the room a write has, and the three lengths add up,
exactly when the read cursor is a multiple of `2 ^ 63`: nothing read, but for a wrap. -/
theorem freeLen_iff_out {config : HyFifoConfig} {contextOk bufOk : Bool}
    {context context' : FifoContext} {ops : List FifoOp} {outs : List FifoOut}
    (hcreate : hyFifoCreate config contextOk bufOk = some context)
    (hops : ∀ op ∈ ops, op.Transfer) (hrun : run fifoStep context ops = some (context', outs)) :
    (FreeLenExact context' ∧ LengthsAddUp context') ↔ context'.out.toNat % 2 ^ 63 = 0 := by
  obtain ⟨hwf, -⟩ := hyFifoCreate_wf hcreate
  have hused := hyFifoCreate_usedLen hcreate
  obtain ⟨hwf', hused'⟩ := run_invariant (fun _ _ _ _ h hop hs => transfer_step h hop hs)
    (⟨hwf, hused⟩ : context.Wf ∧ UsedLenExact context) hops hrun
  refine ⟨fun h => (freeLenExact_iff hwf').mp h.1, fun h => ⟨(freeLenExact_iff hwf').mpr h, ?_⟩⟩
  exact lengthsAddUp_of_free hwf' hused' ((free_eq_iff hwf').mpr h)

/-- After four bytes are written and two read, 2 free bytes of 8 are reported, and a write is
accepted 6. -/
theorem freeLen_after_get :
    ∃ context context' outs, hyFifoCreate ⟨8⟩ true true = some context ∧
      run fifoStep context [.put [1, 2, 3, 4] 4, .get [0, 0] 2] = some (context', outs) ∧
      hyFifoGetInfo context' .freeLen = some 2 ∧
      (hyFifoPut context' (List.replicate 8 9) 8).map Prod.snd = some 6 := by
  refine ⟨{ buf := List.replicate 8 0, size := 8, useCnt := 0, in_ := 0, out := 0 },
    { buf := [1, 2, 3, 4, 0, 0, 0, 0], size := 8, useCnt := 2, in_ := 4, out := 2 },
    [⟨4, [1, 2, 3, 4]⟩, ⟨2, [1, 2]⟩], ?_, ?_, ?_, ?_⟩ <;> decide +kernel

theorem freeLen_iff_out_put :
    (FreeLenExact { buf := [1, 2, 3, 4, 0, 0, 0, 0], size := 8, useCnt := 4, in_ := 4, out := 0 } ∧
      LengthsAddUp
        { buf := [1, 2, 3, 4, 0, 0, 0, 0], size := 8, useCnt := 4, in_ := 4, out := 0 }) ↔
      (0 : UInt64).toNat % 2 ^ 63 = 0 :=
  freeLen_iff_out (show hyFifoCreate ⟨8⟩ true true = some _ from rfl)
    (show ∀ op ∈ [FifoOp.put [1, 2, 3, 4] 4], op.Transfer by
      intro op hop
      obtain rfl := List.mem_singleton.mp hop
      exact Nat.le_refl 4)
    (show run fifoStep _ [.put [1, 2, 3, 4] 4] = some (_, [⟨4, [1, 2, 3, 4]⟩]) by decide +kernel)

end HyUtils.Fifo
