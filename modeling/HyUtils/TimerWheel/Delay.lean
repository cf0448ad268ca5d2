import HyUtils.Foundation.Cyclic
import HyUtils.TimerWheel.Fate

/-!
# How long a timer waits

The ticks before a timer is due are counted down by its slot and its rounds, whatever else is on
the wheel. `HyTimerAdd` splits the delay relative to slot 0, and the loop splits it relative to the
current slot, so the two agree only while the current slot is 0. A repeat timer put back on the
slot it is taken from waits a round more, unless the walk comes to it again.

## Main definitions

* `remaining`: the ticks before a timer is due
* `ticks`: the number of ticks of a run

## Main results

* `run_uncalled`: while a timer is not called, each tick takes one off what remains
* `add_delay_iff`: when the first call comes after the delay asked for
* `repeat_period_iff`: when consecutive calls are the delay apart
-/

namespace HyUtils.TimerWheel

open Cyclic Runs

variable {context context' : TimerContext} {a : Addr} {timer : Timer} {i : ℕ}

/-- The timers whose callback a step calls. -/
def TimerOut.calls : TimerOut → List Addr
  | .ticked calls => calls
  | .added _ | .deleted _ => []

/-- The step is a tick. -/
def TimerOp.isTick : TimerOp → Bool
  | .tick _ => true
  | .add _ _ | .del _ => false

/-- The number of ticks of a run. -/
def ticks (ops : List TimerOp) : ℕ := ops.countP TimerOp.isTick

/-- The ticks before a timer is due. -/
def remaining (context : TimerContext) (timer : Timer) (i : ℕ) : ℕ :=
  countdown context.slotNum context.curSlot i timer.rotation

theorem remaining_eq_zero (hwf : context.Wf) (hat : At context a timer i) :
    remaining context timer i = 0 ↔ i = context.curSlot ∧ timer.rotation = 0 :=
  countdown_eq_zero hwf.curSlot_lt (hwf.slot_lt hat.2)

theorem mem_curSlot_iff (hwf : context.Wf) (hat : At context a timer i) :
    a ∈ context.listHead context.curSlot ↔ i = context.curSlot :=
  ⟨fun h => hwf.unique hat.2 h, fun h => h ▸ hat.2⟩

/-- **A tick before a timer is due** takes one off what remains, and does not call it. -/
theorem tick_remaining_pos {context₁ : TimerContext} {calls : List Addr} (hwf : context.Wf)
    (hsweep : Sweep context (context.listHead context.curSlot) context₁ calls)
    (hat : At context a timer i) (hne : remaining context timer i ≠ 0) :
    a ∉ calls ∧ ∃ r, At (advance context₁) a { timer with rotation := r } i ∧
      remaining (advance context₁) { timer with rotation := r } i + 1 =
        remaining context timer i := by
  obtain ⟨hn, hcur⟩ := hsweep.slotNum_curSlot
  have hadv : ∀ t, remaining (advance context₁) t i =
      countdown context.slotNum ((context.curSlot + 1) % context.slotNum) i t.rotation := by
    intro t
    rw [remaining, advance, hn, hcur]
  by_cases hi : i = context.curSlot
  · -- on the current slot: the walk takes a round off
    subst hi
    have hrot : 0 < timer.rotation := by
      refine Nat.pos_of_ne_zero fun h0 => hne ?_
      exact (remaining_eq_zero hwf hat).mpr ⟨rfl, h0⟩
    obtain ⟨hcalls, hat'⟩ := hsweep.waits (hwf.nodup _) hat.2 hat hrot
    refine ⟨hcalls, _, hat', ?_⟩
    rw [hadv, countdown_tick_of_pos hwf.curSlot_lt, Nat.sub_add_cancel hrot]
    rfl
  · -- on another slot: only the current slot moves
    have hmem := mt (mem_curSlot_iff hwf hat).mp hi
    refine ⟨(hsweep.other hmem).1, timer.rotation, hsweep.other_at hmem hat, ?_⟩
    rw [hadv, countdown_tick_of_ne hwf.curSlot_lt (hwf.slot_lt hat.2) hi]
    rfl

/-- **A tick when a timer is due** visits it. -/
theorem mem_curSlot_of_due (hwf : context.Wf) (hat : At context a timer i)
    (hzero : remaining context timer i = 0) :
    a ∈ context.listHead context.curSlot ∧ timer.rotation = 0 := by
  obtain ⟨hi, hrot⟩ := (remaining_eq_zero hwf hat).mp hzero
  exact ⟨(mem_curSlot_iff hwf hat).mpr hi, hrot⟩

/-- **A tick calls a timer exactly when it is due.** -/
theorem tick_calls_iff {context₁ : TimerContext} {calls : List Addr} (hwf : context.Wf)
    (hsweep : Sweep context (context.listHead context.curSlot) context₁ calls)
    (hat : At context a timer i) (hcb : timer.timerConfig.timerCb.isSome)
    (hpos : timer.timerConfig.repeatFlag = hyTimerModeRepeat → 1 ≤ timer.timerConfig.expires) :
    a ∈ calls ↔ remaining context timer i = 0 := by
  refine ⟨fun h => ?_, fun hzero => ?_⟩
  · by_contra hne
    exact (tick_remaining_pos hwf hsweep hat hne).1 h
  · obtain ⟨hmem, hrot⟩ := mem_curSlot_of_due hwf hat hzero
    have hcount : calls.count a = if timer.timerConfig.timerCb.isSome then 1 else 0 := by
      by_cases hrep : timer.timerConfig.repeatFlag = hyTimerModeRepeat
      · exact (hsweep.repeats (hwf.nodup _) hmem hat hrot hrep (hpos hrep)).1
      · exact (hsweep.once (hwf.nodup _) hmem hat hrot hrep).1
    rw [hcb, if_pos rfl] at hcount
    exact List.count_pos_iff.mp (by omega)

/-- **A step that does not call or delete a timer** leaves it on its slot, and takes one off what
remains when it is a tick. -/
theorem step_uncalled {n : ℕ} {op : TimerOp} {out : TimerOut} (hidle : Idle n context)
    (hat : At context a timer i) (hcb : timer.timerConfig.timerCb.isSome)
    (hpos : timer.timerConfig.repeatFlag = hyTimerModeRepeat → 1 ≤ timer.timerConfig.expires)
    (hs : timerStep context op = some (context', out)) (hdel : op ≠ .del (some a))
    (hcalls : a ∉ out.calls) :
    ∃ r, At context' a { timer with rotation := r } i ∧
      remaining context' { timer with rotation := r } i + ticks [op] =
        remaining context timer i := by
  rcases timerStep_cases hidle.1 hidle.2.1 hs with ⟨timerConfig, ptr, rfl, rfl, -⟩ |
    ⟨_, rfl, -, rfl, -⟩ | ⟨b, rfl, -, rfl, -⟩ | ⟨fuel, calls, c₁, rfl, hsweep, -, -, rfl, rfl⟩
  · obtain ⟨hslot, hcur, -⟩ := @hyTimerAdd_same context timerConfig ptr
    exact ⟨_, hyTimerAdd_at hat _ _, by rw [remaining, hslot, hcur]; rfl⟩
  · exact ⟨_, hat, rfl⟩
  · have hne : a ≠ b := by
      rintro rfl
      exact hdel rfl
    exact ⟨_, remove_at hat hne, rfl⟩
  · -- a tick that does not call the timer comes before it is due
    have hne := mt (tick_calls_iff hidle.1 hsweep hat hcb hpos).mpr hcalls
    exact (tick_remaining_pos hidle.1 hsweep hat hne).2

/-- **While a timer is neither called nor deleted**, each tick takes one off what remains. -/
theorem run_uncalled {n : ℕ} {ops : List TimerOp} {outs : List TimerOut} (hidle : Idle n context)
    (hat : At context a timer i) (hcb : timer.timerConfig.timerCb.isSome)
    (hpos : timer.timerConfig.repeatFlag = hyTimerModeRepeat → 1 ≤ timer.timerConfig.expires)
    (hrun : run timerStep context ops = some (context', outs))
    (hdel : ∀ op ∈ ops, op ≠ .del (some a)) (hcalls : ∀ out ∈ outs, a ∉ out.calls) :
    ∃ r, At context' a { timer with rotation := r } i ∧
      remaining context' { timer with rotation := r } i + ticks ops =
        remaining context timer i := by
  induction ops generalizing context timer outs with
  | nil =>
    obtain ⟨rfl, rfl⟩ : context = context' ∧ outs = [] := by simpa [eq_comm] using hrun
    exact ⟨_, hat, rfl⟩
  | cons op ops ih =>
    obtain ⟨context₁, out, outs', hs, hrun', rfl⟩ := run_cons_eq_some.mp hrun
    obtain ⟨hop, hops⟩ := List.forall_mem_cons.mp hdel
    obtain ⟨hout, houts⟩ := List.forall_mem_cons.mp hcalls
    obtain ⟨r, hat₁, hstep⟩ := step_uncalled hidle hat hcb hpos hs hop hout
    obtain ⟨r', hat₂, hrest⟩ := ih (timerStep_idle hidle hs) hat₁ hcb hpos hrun' hops houts
    refine ⟨r', hat₂, ?_⟩
    have hticks : ticks (op :: ops) = ticks [op] + ticks ops := by
      rw [ticks, ← List.singleton_append, List.countP_append]
      rfl
    rw [hticks, ← hstep, ← hrest]
    ring

/-- **The first call of a timer comes when it is due.** -/
theorem run_called_iff {n fuel : ℕ} {ops : List TimerOp} {outs : List TimerOut}
    {context'' : TimerContext} {calls : List Addr} (hidle : Idle n context)
    (hat : At context a timer i) (hcb : timer.timerConfig.timerCb.isSome)
    (hpos : timer.timerConfig.repeatFlag = hyTimerModeRepeat → 1 ≤ timer.timerConfig.expires)
    (hrun : run timerStep context ops = some (context', outs))
    (hdel : ∀ op ∈ ops, op ≠ .del (some a)) (hcalls : ∀ out ∈ outs, a ∉ out.calls)
    (htick : timerStep context' (.tick fuel) = some (context'', .ticked calls)) :
    a ∈ calls ↔ ticks ops = remaining context timer i := by
  obtain ⟨r, hat', hrem⟩ := run_uncalled hidle hat hcb hpos hrun hdel hcalls
  have hidle' : Idle n context' := run_invariant (fun _ _ _ _ h _ hs => timerStep_idle h hs)
    hidle (fun _ _ => (trivial : True)) hrun
  obtain ⟨_, _, hout, hsweep, -, -, -⟩ := timerStep_tick hidle'.1 hidle'.2.1 htick
  obtain rfl := TimerOut.ticked.inj hout
  rw [tick_calls_iff hidle'.1 hsweep hat' hcb hpos]
  omega

/-! ## The first call -/

/-- **The delay of a single shot**: its callback is called in the tick that follows the ticks
counted down from the slot `HyTimerAdd` puts it on, and these are the delay asked for exactly when
it is added with the current slot at 0. -/
theorem add_delay_iff {slotNum fuel : ℕ} {contextOk listOk : Bool}
    {context₀ context₁ context₂ context₃ : TimerContext} {ops₀ ops : List TimerOp}
    {outs₀ outs : List TimerOut} {timerConfig : HyTimerConfig} {ptr : Option Addr}
    {calls : List Addr} (hslot : 1 ≤ slotNum)
    (hcreate : hyTimerCreate slotNum contextOk listOk = some context₀)
    (hrun₀ : run timerStep context₀ ops₀ = some (context, outs₀))
    (hadd : hyTimerAdd context timerConfig ptr = (context₁, some a))
    (honce : timerConfig.repeatFlag ≠ hyTimerModeRepeat) (hcb : timerConfig.timerCb.isSome)
    (hrun : run timerStep context₁ ops = some (context₂, outs))
    (hdel : ∀ op ∈ ops, op ≠ .del (some a)) (hcalls : ∀ out ∈ outs, a ∉ out.calls)
    (htick : timerStep context₂ (.tick fuel) = some (context₃, .ticked calls)) :
    (a ∈ calls ↔ ticks ops = countdown slotNum context.curSlot (timerConfig.expires % slotNum)
      (timerConfig.expires / slotNum)) ∧
    (a ∈ calls → (ticks ops = timerConfig.expires ↔ context.curSlot = 0)) := by
  have hidle := run_timerStep_idle hslot hcreate hrun₀
  have hn : context.slotNum = slotNum := hidle.2.2
  -- The timer is on the slot and has the rounds that its delay is split into.
  have hidle₁ : Idle slotNum context₁ := timerStep_idle hidle
    (show timerStep context (.add timerConfig ptr) = some (context₁, _) by rw [timerStep, hadd])
  obtain ⟨-, hat, -⟩ := hyTimerAdd_some hadd
  obtain ⟨hslot₁, hcur₁, -⟩ := @hyTimerAdd_same context timerConfig ptr
  rw [hadd] at hslot₁ hcur₁
  have hiff := run_called_iff hidle₁ hat hcb (fun h => absurd h honce) hrun hdel hcalls htick
  rw [remaining, hslot₁, hcur₁, hn] at hiff
  refine ⟨hiff, fun h => ?_⟩
  -- The split is relative to slot 0, the countdown starts from the current slot.
  rw [hiff.mp h]
  exact countdown_of_split_zero (hn ▸ hidle.1.curSlot_lt) _

/-- A single shot of 4 ticks on a fresh wheel of 3 slots is called in the tick after 4. -/
theorem add_delay_iff_four :
    (100 ∈ [100] ↔ ticks [.tick 0, .tick 1, .tick 0, .tick 0] = countdown 3 0 (4 % 3) (4 / 3)) ∧
      (100 ∈ [100] → (ticks [.tick 0, .tick 1, .tick 0, .tick 0] = 4 ↔ (0 : ℕ) = 0)) :=
  add_delay_iff (by decide) (show hyTimerCreate 3 true true = some _ from rfl)
    (show run timerStep _ [] = some (_, []) from rfl)
    (show hyTimerAdd _ ⟨4, 0, some 0, 0⟩ (some 100) = (_, some 100) from rfl) (by decide) rfl
    (show run timerStep _ [.tick 0, .tick 1, .tick 0, .tick 0] =
      some (_, [.ticked [], .ticked [], .ticked [], .ticked []]) from rfl)
    (by simp) (by simp [TimerOut.calls]) (show timerStep _ (.tick 1) = some (_, _) from rfl)

/-- With the current slot at 1, a single shot of 1 tick is called in the next tick; with the
current slot at 0, in the tick after it. -/
theorem add_delay_at_slot_one :
    (hyTimerCreate 3 true true).bind (fun context =>
      (run timerStep context [.tick 0, .add ⟨1, 0, some 0, 0⟩ (some 100), .tick 1]).map Prod.snd) =
        some [.ticked [], .added (some 100), .ticked [100]] ∧
    (hyTimerCreate 3 true true).bind (fun context =>
      (run timerStep context [.add ⟨1, 0, some 0, 0⟩ (some 100), .tick 0, .tick 1]).map Prod.snd) =
        some [.added (some 100), .ticked [], .ticked [100]] :=
  ⟨rfl, rfl⟩

/-! ## Consecutive calls -/

/-- What remains of a repeat timer after the tick that calls it. -/
theorem remaining_after {context₁ : TimerContext} {q calls : List Addr} {r : ℕ}
    (hwf : context.Wf) (hsweep : Sweep context q context₁ calls)
    (hrounds : roundsAfter context q a timer r) :
    (timer.timerConfig.expires % context.slotNum ≠ 0 ∨ ¬ lastToReturn context q a →
      remaining (advance context₁) { timer with rotation := r }
        ((timer.timerConfig.expires % context.slotNum + context.curSlot) % context.slotNum) + 1 =
          timer.timerConfig.expires) ∧
    (timer.timerConfig.expires % context.slotNum = 0 ∧ lastToReturn context q a →
      remaining (advance context₁) { timer with rotation := r }
        ((timer.timerConfig.expires % context.slotNum + context.curSlot) % context.slotNum) + 1 =
          timer.timerConfig.expires + context.slotNum) := by
  obtain ⟨hn, hcur⟩ := hsweep.slotNum_curSlot
  have hdiv := Nat.mod_add_div timer.timerConfig.expires context.slotNum
  have hc := hwf.curSlot_lt
  rw [remaining, advance, hn, hcur]
  by_cases hmod : timer.timerConfig.expires % context.slotNum = 0
  · -- back on the slot it is taken from: a round a rotation, and one more
    rw [hmod, Nat.zero_add, Nat.mod_eq_of_lt hc, countdown_of_round hc]
    rw [hmod, Nat.zero_add] at hdiv
    rcases hrounds with ⟨-, hlast, hr⟩ | ⟨hlast, rfl⟩
    · refine ⟨fun _ => ?_, fun h => absurd h.2 hlast⟩
      change context.slotNum * (r + 1) = _
      rw [hr, hdiv]
    · have hlast := hlast.resolve_left (not_not_intro hmod)
      refine ⟨fun h => absurd hlast (h.resolve_left (not_not_intro rfl)), fun _ => ?_⟩
      rw [Nat.mul_succ, hdiv]
  · -- on another slot: the delay is split relative to the current slot
    obtain rfl : r = timer.timerConfig.expires / context.slotNum := by
      rcases hrounds with ⟨h, -⟩ | ⟨-, hr⟩
      · exact absurd h hmod
      · exact hr
    exact ⟨fun _ => countdown_of_split hc hmod, fun h => absurd h.1 hmod⟩

/-- **The period of a repeat timer**: consecutive calls are the delay asked for apart, exactly when
the delay is no multiple of the number of slots, or the walk that makes the first call comes to
the timer again. Otherwise they are a whole round further apart. -/
theorem repeat_period_iff {slotNum fuel₁ fuel₂ : ℕ} {contextOk listOk : Bool}
    {context₀ context₁ context₂ context₃ : TimerContext} {ops₀ ops : List TimerOp}
    {outs₀ outs : List TimerOut} {calls₁ calls₂ : List Addr} (hslot : 1 ≤ slotNum)
    (hcreate : hyTimerCreate slotNum contextOk listOk = some context₀)
    (hrun₀ : run timerStep context₀ ops₀ = some (context, outs₀))
    (ht : context.heap a = some timer)
    (hrep : timer.timerConfig.repeatFlag = hyTimerModeRepeat)
    (hpos : 1 ≤ timer.timerConfig.expires)
    (htick₁ : timerStep context (.tick fuel₁) = some (context₁, .ticked calls₁))
    (ha₁ : a ∈ calls₁) (hrun : run timerStep context₁ ops = some (context₂, outs))
    (hdel : ∀ op ∈ ops, op ≠ .del (some a)) (hcalls : ∀ out ∈ outs, a ∉ out.calls)
    (htick₂ : timerStep context₂ (.tick fuel₂) = some (context₃, .ticked calls₂))
    (ha₂ : a ∈ calls₂) :
    calls₁.count a = 1 ∧
      (ticks ops + 1 = timer.timerConfig.expires ↔
        timer.timerConfig.expires % slotNum ≠ 0 ∨
          ¬ lastToReturn context (context.listHead context.curSlot) a) ∧
      (ticks ops + 1 = timer.timerConfig.expires ∨
        ticks ops + 1 = timer.timerConfig.expires + slotNum) := by
  have hidle := run_timerStep_idle hslot hcreate hrun₀
  obtain ⟨hwf, hfree, hn⟩ := id hidle
  obtain ⟨i, hi⟩ := (hwf.live_iff a).mp (by rw [ht]; rfl)
  have hat : At context a timer i := ⟨ht, hi⟩
  obtain ⟨_, c₁, hout, hsweep, -, -, rfl⟩ := timerStep_tick hwf hfree htick₁
  obtain rfl := TimerOut.ticked.inj hout
  -- The first call says that the timer is due ...
  have hzero : remaining context timer i = 0 := by
    by_contra hne
    exact (tick_remaining_pos hwf hsweep hat hne).1 ha₁
  obtain ⟨hmem, hrot⟩ := mem_curSlot_of_due hwf hat hzero
  -- ... so it is put back, and called again when what remains then has been counted down.
  obtain ⟨hcount, r, hrounds, hat₁⟩ := hsweep.repeats (hwf.nodup _) hmem hat hrot hrep hpos
  have hcb : timer.timerConfig.timerCb.isSome := by
    by_contra hnone
    rw [if_neg hnone, List.count_eq_zero] at hcount
    exact hcount ha₁
  have hidle₁ : Idle slotNum (advance c₁) := timerStep_idle hidle htick₁
  have hticks := (run_called_iff hidle₁ (show At (advance c₁) a _ _ from hat₁) hcb (fun _ => hpos)
    hrun hdel hcalls htick₂).mp ha₂
  obtain ⟨hgood, hbad⟩ := remaining_after hwf hsweep hrounds
  rw [← hticks, hn] at hgood hbad
  refine ⟨by rw [hcount, hcb]; rfl, ⟨fun h => ?_, hgood⟩, ?_⟩
  · by_contra hnot
    rw [not_or, not_not, not_not] at hnot
    have := hbad hnot
    omega
  · by_cases h : timer.timerConfig.expires % slotNum ≠ 0 ∨
        ¬ lastToReturn context (context.listHead context.curSlot) a
    · exact .inl (hgood h)
    · rw [not_or, not_not, not_not] at h
      exact .inr (hbad h)

theorem repeat_period_iff_three :
    [100].count 100 = 1 ∧
      (ticks [.tick 0, .tick 0] + 1 = 3 ↔ 3 % 4 ≠ 0 ∨ ¬ lastToReturn
        { slotNum := 4, curSlot := 3, mutex := false
          listHead := Function.update (fun _ => []) 3 [100]
          heap := Function.update (fun _ => none) 100 (some ⟨⟨3, 1, some 0, 0⟩, 0⟩) } [100] 100) ∧
      (ticks [.tick 0, .tick 0] + 1 = 3 ∨ ticks [.tick 0, .tick 0] + 1 = 3 + 4) :=
  repeat_period_iff (by decide) (show hyTimerCreate 4 true true = some _ from rfl)
    (show run timerStep _ [.add ⟨3, 1, some 0, 0⟩ (some 100), .tick 0, .tick 0, .tick 0] =
      some (_, _) from rfl) (show _ = some ⟨⟨3, 1, some 0, 0⟩, 0⟩ from rfl) rfl (by decide)
    (show timerStep _ (.tick 1) = some (_, .ticked [100]) from rfl) (by simp)
    (show run timerStep _ [.tick 0, .tick 0] = some (_, [.ticked [], .ticked []]) from rfl)
    (by simp) (by simp [TimerOut.calls])
    (show timerStep _ (.tick 1) = some (_, .ticked [100]) from rfl)
    (by simp)

/-- Alone on a wheel of one slot, a repeat timer of 1 tick is called every second tick. -/
theorem repeat_period_one_slot :
    (hyTimerCreate 1 true true).bind (fun context =>
      (run timerStep context
        [.add ⟨1, 1, some 0, 0⟩ (some 100), .tick 1, .tick 1, .tick 1, .tick 1]).map Prod.snd) =
      some [.added (some 100), .ticked [], .ticked [100], .ticked [], .ticked [100]] := rfl

end HyUtils.TimerWheel
