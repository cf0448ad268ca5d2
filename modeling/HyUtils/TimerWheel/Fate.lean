import HyUtils.TimerWheel.Walk

/-!
# What a tick does to each timer

A tick decrements the timers of the current slot that have rounds to wait, frees the single shots
that are due, and puts the repeat timers that are due on the slot of their next delay. Every other
timer is left alone, whatever else is on the wheel.

## Main definitions

* `At context a timer i`: `timer` is at the address `a` and on the list of slot `i`
* `lastToReturn context q a`: `a` is the last of the timers `q`, and no other of them is put back

## Main results

* `Sweep.other`, `Sweep.waits`, `Sweep.once`, `Sweep.repeats`: the four fates of a timer
* `timerStep_cases`: what a step can be
* `run_timerStep_idle`: the invariant of every reachable wheel
-/

namespace HyUtils.TimerWheel

open Runs SavedSuccessor

variable {context context' : TimerContext} {q rest calls : List Addr} {a b : Addr}
  {timer : Timer} {i : ℕ}

/-- The timer at the address, on the list of the slot. -/
def At (context : TimerContext) (a : Addr) (timer : Timer) (i : ℕ) : Prop :=
  context.heap a = some timer ∧ a ∈ context.listHead i

theorem At.store (h : At context a timer i) (hne : a ≠ b) (t : Timer) :
    At (context.store b t) a timer i := ⟨by rw [store_heap_of_ne _ _ hne, h.1], h.2⟩

theorem At.store_self (h : At context a timer i) (t : Timer) : At (context.store a t) a t i :=
  ⟨store_heap_self .., h.2⟩

theorem mem_fire_listHead (h : b ≠ a) :
    b ∈ (fire context a timer).listHead i ↔ b ∈ context.listHead i := by
  by_cases hr : timer.timerConfig.repeatFlag = hyTimerModeRepeat
  · rw [fire_repeat hr, mem_listAddTail]
    simp [h, List.mem_erase_of_ne h]
  · rw [fire_once hr]
    simp [List.mem_erase_of_ne h]

theorem At.fire {t : Timer} (h : At context a timer i) (hne : a ≠ b) :
    At (fire context b t) a timer i :=
  ⟨by rw [fire_heap_of_ne hne, h.1], (mem_fire_listHead hne).mpr h.2⟩

/-- A repeat timer that is due goes to the slot of its next delay. -/
theorem at_fire_of_repeat (h : timer.timerConfig.repeatFlag = hyTimerModeRepeat) :
    At (fire context a timer) a
      { timer with rotation := timer.timerConfig.expires / context.slotNum }
      ((timer.timerConfig.expires % context.slotNum + context.curSlot) % context.slotNum) := by
  refine ⟨fire_heap_self_of_repeat h, ?_⟩
  rw [fire_repeat h, mem_listAddTail]
  exact .inr ⟨rfl, rfl⟩

/-! ## Sweeps -/

theorem Sweep.slotNum_curSlot (h : Sweep context q context' calls) :
    context'.slotNum = context.slotNum ∧ context'.curSlot = context.curSlot := by
  induction h with
  | nil => exact ⟨rfl, rfl⟩
  | wait _ _ _ ih => exact ih
  | fire _ _ _ ih =>
    rw [fire_slotNum, fire_curSlot] at ih
    exact ih

theorem mem_called {p : Bool} (h : b ∈ if p then [a] else []) : b = a := by
  split_ifs at h
  · exact List.mem_singleton.mp h
  · exact absurd h List.not_mem_nil

/-- The timers put back are among those just visited. -/
theorem mem_toVisit_returning {p : Bool} (h : b ∈ toVisit rest (if p then [a] else [])) :
    b ∈ rest ∨ b = a := by
  exact (mem_toVisit h).imp_right mem_called

/-- **A timer keeps its configuration**, and no timer appears. -/
theorem Sweep.config (h : Sweep context q context' calls) {t : Timer}
    (ht : context'.heap a = some t) :
    ∃ timer, context.heap a = some timer ∧ t.timerConfig = timer.timerConfig := by
  induction h with
  | nil => exact ⟨t, ht, rfl⟩
  | @wait context context' b rest calls timer hb _ _ ih =>
    obtain ⟨t₁, ht₁, hconfig⟩ := ih ht
    by_cases hab : a = b
    · subst hab
      rw [store_heap_self] at ht₁
      obtain rfl := Option.some.inj ht₁
      exact ⟨timer, hb, hconfig⟩
    · rw [store_heap_of_ne _ _ hab] at ht₁
      exact ⟨t₁, ht₁, hconfig⟩
  | @fire context context' b rest calls timer hb _ _ ih =>
    obtain ⟨t₁, ht₁, hconfig⟩ := ih ht
    by_cases hab : a = b
    · -- a repeat timer keeps its configuration, a single shot is gone
      subst hab
      by_cases hr : timer.timerConfig.repeatFlag = hyTimerModeRepeat
      · rw [fire_heap_self_of_repeat hr] at ht₁
        obtain rfl := Option.some.inj ht₁
        exact ⟨timer, hb, hconfig⟩
      · rw [fire_once hr, free_heap_self] at ht₁
        cases ht₁
    · rw [fire_heap_of_ne hab] at ht₁
      exact ⟨t₁, ht₁, hconfig⟩

/-- **A timer that is not visited** is left alone, and its callback is not called. -/
theorem Sweep.other (h : Sweep context q context' calls) (ha : a ∉ q) :
    a ∉ calls ∧ context'.heap a = context.heap a ∧
      ∀ {i}, a ∈ context.listHead i → a ∈ context'.listHead i := by
  induction h with
  | nil => exact ⟨List.not_mem_nil, rfl, fun h => h⟩
  | wait _ _ _ ih =>
    obtain ⟨hne, hrest⟩ := List.ne_and_not_mem_of_not_mem_cons ha
    obtain ⟨hcalls, hheap, hlist⟩ := ih hrest
    exact ⟨hcalls, by rw [hheap, store_heap_of_ne _ _ hne], hlist⟩
  | fire _ _ _ ih =>
    obtain ⟨hne, hrest⟩ := List.ne_and_not_mem_of_not_mem_cons ha
    obtain ⟨hcalls, hheap, hlist⟩ := ih (mt mem_toVisit_returning (not_or_intro hrest hne))
    refine ⟨fun hmem => ?_, by rw [hheap, fire_heap_of_ne hne],
      fun h => hlist ((mem_fire_listHead hne).mpr h)⟩
    rcases List.mem_append.mp hmem with hmem | hmem
    · exact hne (mem_called hmem)
    · exact hcalls hmem

theorem Sweep.other_at (h : Sweep context q context' calls) (ha : a ∉ q)
    (hat : At context a timer i) : At context' a timer i := by
  obtain ⟨-, hheap, hlist⟩ := h.other ha
  exact ⟨hheap.trans hat.1, hlist hat.2⟩

/-- The timer is the last to be visited, and no other is put back behind it. -/
def lastToReturn (context : TimerContext) (q : List Addr) (a : Addr) : Prop :=
  q.getLast? = some a ∧ ∀ b ∈ q, b ≠ a → requeues context b = false

theorem lastToReturn_cons_self (h : (a :: rest).Nodup) :
    lastToReturn context (a :: rest) a ↔ rest = [] := by
  constructor
  · rintro ⟨hlast, -⟩
    cases rest with
    | nil => rfl
    | cons b rest =>
      rw [List.getLast?_cons_cons] at hlast
      exact absurd (List.mem_of_getLast? hlast) (List.nodup_cons.mp h).1
  · rintro rfl
    exact ⟨rfl, fun b hb hne => absurd (List.mem_singleton.mp hb) hne⟩

/-- A timer visited before, and not put back, does not count. -/
theorem lastToReturn_cons_of_ne (ha : a ∈ rest) (hb : requeues context b = false)
    (hslot : context'.slotNum = context.slotNum)
    (hheap : ∀ c ∈ rest, context'.heap c = context.heap c) :
    lastToReturn context' rest a ↔ lastToReturn context (b :: rest) a := by
  have hlast : (b :: rest).getLast? = rest.getLast? := by
    cases rest with
    | nil => exact absurd ha List.not_mem_nil
    | cons c rest => exact List.getLast?_cons_cons
  have hreq : ∀ c ∈ rest, requeues context' c = requeues context c := by
    intro c hc
    rw [requeues, requeues, hheap c hc, hslot]
  rw [lastToReturn, lastToReturn, hlast, List.forall_mem_cons]
  exact and_congr_right fun _ => ⟨fun h => ⟨fun _ => hb, fun c hc hne => hreq c hc ▸ h c hc hne⟩,
    fun h c hc hne => hreq c hc ▸ h.2 c hc hne⟩

/-- A timer put back is behind all others. -/
theorem not_lastToReturn_concat (h : b ≠ a) : ¬ lastToReturn context (rest ++ [b]) a := by
  rintro ⟨hlast, -⟩
  rw [List.getLast?_concat] at hlast
  exact h (Option.some.inj hlast)

theorem nodup_toVisit_returning {p : Bool} (h : (b :: rest).Nodup) :
    (toVisit rest (if p then [b] else [])).Nodup := by
  obtain ⟨hb, hrest⟩ := List.nodup_cons.mp h
  cases p with
  | false =>
    rw [if_neg Bool.false_ne_true, toVisit_nil_right]
    exact hrest
  | true =>
    rw [if_pos rfl]
    refine List.Nodup.sublist (toVisit_suffix _ _).sublist ?_
    exact List.nodup_append.mpr ⟨hrest, List.nodup_singleton b, by
      intro c hc d hd
      obtain rfl := List.mem_singleton.mp hd
      rintro rfl
      exact hb hc⟩

/-- **The sweep reaches each timer**, which is left alone until then. -/
theorem Sweep.reaches (h : Sweep context q context' calls) (hnd : q.Nodup) (ha : a ∈ q)
    (hat : At context a timer i) :
    ∃ context₁ rest calls₁ calls₂, Sweep context₁ (a :: rest) context' calls₂ ∧
      (a :: rest).Nodup ∧ At context₁ a timer i ∧ context₁.slotNum = context.slotNum ∧
      context₁.curSlot = context.curSlot ∧ calls = calls₁ ++ calls₂ ∧ a ∉ calls₁ ∧
      (rest = [] ↔ lastToReturn context q a) := by
  -- Induction on the sweep, up to the round of the timer.
  induction h with
  | nil => exact absurd ha List.not_mem_nil
  | @wait context context' b rest calls t ht hrot hrest ih =>
    by_cases hab : a = b
    · subst hab
      exact ⟨context, rest, [], calls, .wait ht hrot hrest, hnd, hat, rfl, rfl, rfl,
        List.not_mem_nil, (lastToReturn_cons_self hnd).symm⟩
    · have ha' : a ∈ rest := (List.mem_cons.mp ha).resolve_left hab
      obtain ⟨hb, hnd'⟩ := List.nodup_cons.mp hnd
      obtain ⟨c₁, rest₁, calls₁, calls₂, hs, hnd₁, hat₁, hn, hcur, hcalls, hmem, hlast⟩ :=
        ih hnd' ha' (hat.store hab _)
      refine ⟨c₁, rest₁, calls₁, calls₂, hs, hnd₁, hat₁, hn, hcur, hcalls, hmem, hlast.trans ?_⟩
      -- a timer with rounds to wait is not put back
      refine lastToReturn_cons_of_ne ha' ?_ rfl fun c hc => store_heap_of_ne _ _ ?_
      · rw [requeues_of_heap ht, beq_false_of_ne (by omega), Bool.false_and]
      · rintro rfl
        exact hb hc
  | @fire context context' b rest calls t ht hrot hrest ih =>
    by_cases hab : a = b
    · subst hab
      exact ⟨context, rest, [], _, .fire ht hrot hrest, hnd, hat, rfl, rfl, rfl,
        List.not_mem_nil, (lastToReturn_cons_self hnd).symm⟩
    · have ha' : a ∈ rest := (List.mem_cons.mp ha).resolve_left hab
      obtain ⟨hb, -⟩ := List.nodup_cons.mp hnd
      obtain ⟨c₁, rest₁, calls₁, calls₂, hs, hnd₁, hat₁, hn, hcur, rfl, hmem, hlast⟩ :=
        ih (nodup_toVisit_returning hnd) (mem_toVisit_left ha' _) (hat.fire hab)
      rw [fire_slotNum] at hn
      rw [fire_curSlot] at hcur
      refine ⟨c₁, rest₁, (if t.timerConfig.timerCb.isSome then [b] else []) ++ calls₁, calls₂, hs,
        hnd₁, hat₁, hn, hcur, (List.append_assoc ..).symm, ?_, hlast.trans ?_⟩
      · exact fun hm => (List.mem_append.mp hm).elim (fun hm => hab (mem_called hm)) hmem
      · by_cases hret : t.returns context.slotNum = true
        · -- a timer put back comes behind, so the timer is not the last
          have hreq : requeues context b = true := by
            rw [requeues_of_heap ht, hrot, hret]
            rfl
          rw [if_pos hret, toVisit_of_ne (List.ne_nil_of_mem ha')]
          refine iff_of_false (not_lastToReturn_concat (Ne.symm hab)) fun h => ?_
          have hfalse := h.2 b List.mem_cons_self (Ne.symm hab)
          rw [hreq] at hfalse
          cases hfalse
        · -- a timer gone from the slot does not count
          rw [if_neg hret, toVisit_nil_right]
          refine lastToReturn_cons_of_ne ha' ?_ fire_slotNum fun c hc => fire_heap_of_ne ?_
          · rw [requeues_of_heap ht, Bool.eq_false_iff.mpr hret, Bool.and_false]
          · rintro rfl
            exact hb hc

/-- **A timer with rounds to wait** waits one round less. -/
theorem Sweep.waits (h : Sweep context q context' calls) (hnd : q.Nodup) (ha : a ∈ q)
    (hat : At context a timer i) (hrot : 0 < timer.rotation) :
    a ∉ calls ∧ At context' a { timer with rotation := timer.rotation - 1 } i := by
  obtain ⟨c₁, rest, calls₁, calls₂, hs, hnd₁, hat₁, -, -, rfl, hmem, -⟩ := h.reaches hnd ha hat
  have hrest := (List.nodup_cons.mp hnd₁).1
  cases hs with
  | wait ht _ hs =>
    obtain rfl := Option.some.inj (ht.symm.trans hat₁.1)
    exact ⟨fun hm => (List.mem_append.mp hm).elim hmem (hs.other hrest).1,
      hs.other_at hrest (hat₁.store_self _)⟩
  | fire ht hrot' _ =>
    obtain rfl := Option.some.inj (ht.symm.trans hat₁.1)
    omega

/-- The calls of a timer that is visited once it is due, and called no more. -/
theorem count_calls {calls₁ calls₂ : List Addr} (p : Bool) (h₁ : a ∉ calls₁) (h₂ : a ∉ calls₂) :
    (calls₁ ++ ((if p then [a] else []) ++ calls₂)).count a = if p then 1 else 0 := by
  rw [List.count_append, List.count_append, List.count_eq_zero_of_not_mem h₁,
    List.count_eq_zero_of_not_mem h₂]
  cases p <;> simp

/-- **A single shot that is due** is called once and freed. -/
theorem Sweep.once (h : Sweep context q context' calls) (hnd : q.Nodup) (ha : a ∈ q)
    (hat : At context a timer i) (hrot : timer.rotation = 0)
    (honce : timer.timerConfig.repeatFlag ≠ hyTimerModeRepeat) :
    calls.count a = (if timer.timerConfig.timerCb.isSome then 1 else 0) ∧
      context'.heap a = none := by
  obtain ⟨c₁, rest, calls₁, calls₂, hs, hnd₁, hat₁, -, -, rfl, hmem, -⟩ := h.reaches hnd ha hat
  have hrest := (List.nodup_cons.mp hnd₁).1
  cases hs with
  | wait ht hrot' _ =>
    obtain rfl := Option.some.inj (ht.symm.trans hat₁.1)
    omega
  | @fire _ _ _ _ _ t ht _ hs =>
    obtain rfl : timer = t := Option.some.inj (hat₁.1.symm.trans ht)
    have hret : timer.returns c₁.slotNum = false := by
      rw [Bool.eq_false_iff, Ne, Timer.returns_iff]
      exact fun h => honce h.1
    rw [hret, if_neg Bool.false_ne_true, toVisit_nil_right] at hs
    -- it is not among the timers visited later
    obtain ⟨hcalls, hheap, -⟩ := hs.other hrest
    refine ⟨count_calls _ hmem hcalls, ?_⟩
    rw [hheap, fire_once honce, free_heap_self]

/-- The rounds a repeat timer waits after it is put back: when it is put back on the slot being
walked, and is not the last there, the walk comes to it again and takes one off. -/
def roundsAfter (context : TimerContext) (q : List Addr) (a : Addr) (timer : Timer) (r : ℕ) :
    Prop :=
  (timer.timerConfig.expires % context.slotNum = 0 ∧ ¬ lastToReturn context q a ∧
      r + 1 = timer.timerConfig.expires / context.slotNum) ∨
    ((timer.timerConfig.expires % context.slotNum ≠ 0 ∨ lastToReturn context q a) ∧
      r = timer.timerConfig.expires / context.slotNum)

/-- **A repeat timer that is due** is called once and put on the slot of its next delay. -/
theorem Sweep.repeats (h : Sweep context q context' calls) (hnd : q.Nodup) (ha : a ∈ q)
    (hat : At context a timer i) (hrot : timer.rotation = 0)
    (hrep : timer.timerConfig.repeatFlag = hyTimerModeRepeat)
    (hpos : 1 ≤ timer.timerConfig.expires) :
    calls.count a = (if timer.timerConfig.timerCb.isSome then 1 else 0) ∧
      ∃ r, roundsAfter context q a timer r ∧ At context' a { timer with rotation := r }
        ((timer.timerConfig.expires % context.slotNum + context.curSlot) % context.slotNum) := by
  obtain ⟨c₁, rest, calls₁, calls₂, hs, hnd₁, hat₁, hn, hcur, rfl, hmem, hlast⟩ :=
    h.reaches hnd ha hat
  have hrest := (List.nodup_cons.mp hnd₁).1
  cases hs with
  | wait ht hrot' _ =>
    obtain rfl := Option.some.inj (ht.symm.trans hat₁.1)
    omega
  | @fire _ _ _ _ _ t ht _ hs =>
    obtain rfl : timer = t := Option.some.inj (hat₁.1.symm.trans ht)
    have hfire := @at_fire_of_repeat c₁ a timer hrep
    rw [hn, hcur] at hfire
    by_cases hmod : timer.timerConfig.expires % context.slotNum = 0
    · have hret : timer.returns c₁.slotNum = true := Timer.returns_iff.mpr ⟨hrep, hn ▸ hmod⟩
      rw [hret, if_pos rfl] at hs
      by_cases hnil : rest = []
      · -- it was the last: the saved successor is the head, and the walk ends
        subst hnil
        rw [toVisit_nil] at hs
        exact ⟨count_calls _ hmem (hs.other List.not_mem_nil).1, _,
          .inr ⟨.inr (hlast.mp rfl), rfl⟩, hs.other_at List.not_mem_nil hfire⟩
      · -- the walk comes to the timer again, and takes a round off
        have hdiv := Nat.mod_add_div timer.timerConfig.expires context.slotNum
        have hrounds : 0 < timer.timerConfig.expires / context.slotNum := by
          refine Nat.pos_of_ne_zero fun h0 => ?_
          rw [hmod, h0, Nat.mul_zero] at hdiv
          omega
        have hnd' : (toVisit rest [a]).Nodup := @nodup_toVisit_returning rest a true hnd₁
        have ha' : a ∈ toVisit rest [a] := by
          rw [toVisit_of_ne hnil]
          exact List.mem_append_right _ (List.mem_singleton_self a)
        obtain ⟨hcalls, hat'⟩ := hs.waits hnd' ha' hfire hrounds
        exact ⟨count_calls _ hmem hcalls, _,
          .inl ⟨hmod, mt hlast.mpr hnil, Nat.sub_add_cancel hrounds⟩, hat'⟩
    · -- it goes to another slot
      have hret : timer.returns c₁.slotNum = false := by
        rw [Bool.eq_false_iff, Ne, Timer.returns_iff, hn]
        exact fun h => hmod h.2
      rw [hret, if_neg Bool.false_ne_true, toVisit_nil_right] at hs
      exact ⟨count_calls _ hmem (hs.other hrest).1, _, .inr ⟨.inl hmod, rfl⟩,
        hs.other_at hrest hfire⟩

/-! ## Steps -/

/-- What `HyTimerDel` does, the mutex being free. -/
theorem hyTimerDel_cases (hwf : context.Wf) (hfree : context.mutex = false)
    (handle : Option Addr) :
    ((∀ a, handle = some a → context.heap a = none) ∧
        hyTimerDel context handle = .ok (context, handle)) ∨
      ∃ a, handle = some a ∧ (context.heap a).isSome ∧
        hyTimerDel context handle = .ok ((context.listDel a).free a, none) := by
  cases handle with
  | none => exact .inl ⟨nofun, rfl⟩
  | some a =>
    by_cases ha : (context.heap a).isSome
    · exact .inr ⟨a, rfl, ha, hyTimerDel_of_live hwf hfree ha⟩
    · rw [Option.not_isSome_iff_eq_none] at ha
      refine .inl ⟨?_, hyTimerDel_of_dead hwf ha⟩
      rintro b hb
      obtain rfl := Option.some.inj hb
      exact ha

theorem timerStep_tick {fuel : ℕ} {out : TimerOut} (hwf : context.Wf)
    (hfree : context.mutex = false) (h : timerStep context (.tick fuel) = some (context', out)) :
    ∃ calls context₁, out = .ticked calls ∧
      Sweep context (context.listHead context.curSlot) context₁ calls ∧ context₁.Wf ∧
      context₁.mutex = false ∧ context' = advance context₁ := by
  obtain ⟨⟨c, calls⟩, htick, heq⟩ := Option.map_eq_some_iff.mp h
  obtain ⟨rfl, rfl⟩ := Prod.mk.inj heq
  obtain ⟨context₁, hsweep, hwf₁, hfree₁, rfl⟩ := tick_sweep hwf hfree htick
  exact ⟨calls, context₁, rfl, hsweep, hwf₁, hfree₁, rfl⟩

/-- **What a step can be**, from a wheel between two calls. -/
theorem timerStep_cases {op : TimerOp} {out : TimerOut} (hwf : context.Wf)
    (hfree : context.mutex = false) (h : timerStep context op = some (context', out)) :
    (∃ timerConfig ptr, op = .add timerConfig ptr ∧
        context' = (hyTimerAdd context timerConfig ptr).1 ∧
        out = .added (hyTimerAdd context timerConfig ptr).2) ∨
      (∃ handle, op = .del handle ∧ (∀ a, handle = some a → context.heap a = none) ∧
        context' = context ∧ out = .deleted handle) ∨
      (∃ a, op = .del (some a) ∧ (context.heap a).isSome ∧
        context' = (context.listDel a).free a ∧ out = .deleted none) ∨
      ∃ fuel calls context₁, op = .tick fuel ∧
        Sweep context (context.listHead context.curSlot) context₁ calls ∧ context₁.Wf ∧
        context₁.mutex = false ∧ context' = advance context₁ ∧ out = .ticked calls := by
  cases op with
  | add timerConfig ptr =>
    obtain ⟨rfl, rfl⟩ := Prod.mk.inj (Option.some.inj h)
    exact .inl ⟨timerConfig, ptr, rfl, rfl, rfl⟩
  | del handle =>
    rw [timerStep] at h
    rcases hyTimerDel_cases hwf hfree handle with ⟨hdead, hdel⟩ | ⟨a, rfl, ha, hdel⟩
    · rw [hdel] at h
      obtain ⟨rfl, rfl⟩ := Prod.mk.inj (Option.some.inj h)
      exact .inr (.inl ⟨handle, rfl, hdead, rfl, rfl⟩)
    · rw [hdel] at h
      obtain ⟨rfl, rfl⟩ := Prod.mk.inj (Option.some.inj h)
      exact .inr (.inr (.inl ⟨a, rfl, ha, rfl, rfl⟩))
  | tick fuel =>
    obtain ⟨calls, context₁, rfl, hsweep, hwf₁, hfree₁, rfl⟩ := timerStep_tick hwf hfree h
    exact .inr (.inr (.inr ⟨fuel, calls, context₁, rfl, hsweep, hwf₁, hfree₁, rfl, rfl⟩))

theorem advance_wf (h : context.Wf) : (advance context).Wf :=
  ⟨Nat.mod_lt _ h.slotNum_pos, h.nodup, h.unique, h.slot_lt, h.live_iff⟩

theorem hyTimerAdd_same (timerConfig : HyTimerConfig) (ptr : Option Addr) :
    (hyTimerAdd context timerConfig ptr).1.slotNum = context.slotNum ∧
      (hyTimerAdd context timerConfig ptr).1.curSlot = context.curSlot ∧
      (hyTimerAdd context timerConfig ptr).1.mutex = context.mutex := by
  rcases hyTimerAdd_cases context timerConfig ptr with hadd | ⟨a, -, hadd⟩
  · rw [hadd]
    exact ⟨rfl, rfl, rfl⟩
  · rw [hadd]
    exact ⟨rfl, rfl, rfl⟩

/-- The timer `HyTimerAdd` returns. -/
theorem hyTimerAdd_some {timerConfig : HyTimerConfig} {ptr : Option Addr}
    (h : hyTimerAdd context timerConfig ptr = (context', some a)) :
    context.heap a = none ∧
      At context' a ⟨timerConfig, timerConfig.expires / context.slotNum⟩
        (timerConfig.expires % context.slotNum) ∧
      ∀ b, b ≠ a → context'.heap b = context.heap b := by
  rcases hyTimerAdd_cases context timerConfig ptr with hadd | ⟨c, hfree, hadd⟩
  · cases (Prod.mk.inj (h.symm.trans hadd)).2
  · obtain ⟨rfl, heq⟩ := Prod.mk.inj (h.symm.trans hadd)
    obtain rfl := Option.some.inj heq
    exact ⟨hfree, ⟨store_heap_self .., (mem_listAddTail ..).mpr (.inr ⟨rfl, rfl⟩)⟩,
      fun b hb => store_heap_of_ne _ _ hb⟩

theorem PositiveRepeats.add (h : PositiveRepeats context) {timerConfig : HyTimerConfig}
    (hpos : timerConfig.repeatFlag = hyTimerModeRepeat → 1 ≤ timerConfig.expires)
    (ptr : Option Addr) : PositiveRepeats (hyTimerAdd context timerConfig ptr).1 := by
  rcases hyTimerAdd_cases context timerConfig ptr with hadd | ⟨b, -, hadd⟩
  · rw [hadd]
    exact h
  · rw [hadd]
    intro a timer ht hrep
    rw [listAddTail_heap] at ht
    by_cases hab : a = b
    · subst hab
      rw [store_heap_self] at ht
      obtain rfl := Option.some.inj ht
      exact hpos hrep
    · rw [store_heap_of_ne _ _ hab] at ht
      exact h a timer ht hrep

theorem hyTimerAdd_at (hat : At context a timer i) (timerConfig : HyTimerConfig)
    (ptr : Option Addr) : At (hyTimerAdd context timerConfig ptr).1 a timer i := by
  rcases hyTimerAdd_cases context timerConfig ptr with hadd | ⟨b, hfree, hadd⟩
  · rw [hadd]
    exact hat
  · -- the allocator does not answer an address in use
    have hne : a ≠ b := by
      rintro rfl
      rw [hat.1] at hfree
      cases hfree
    rw [hadd]
    exact ⟨(store_heap_of_ne _ _ hne).trans hat.1, (mem_listAddTail ..).mpr (.inl hat.2)⟩

theorem remove_at {b : Addr} (hat : At context a timer i) (hne : a ≠ b) :
    At ((context.listDel b).free b) a timer i :=
  ⟨(free_heap_of_ne _ hne).trans hat.1, (List.mem_erase_of_ne hne).mpr hat.2⟩

/-- A wheel between two calls, with `n` slots. -/
def Idle (n : ℕ) (context : TimerContext) : Prop :=
  context.Wf ∧ context.mutex = false ∧ context.slotNum = n

/-- **Every step keeps the invariant.** -/
theorem timerStep_idle {n : ℕ} {op : TimerOp} {out : TimerOut} (h : Idle n context)
    (hs : timerStep context op = some (context', out)) : Idle n context' := by
  obtain ⟨hwf, hfree, hn⟩ := h
  rcases timerStep_cases hwf hfree hs with ⟨timerConfig, ptr, -, rfl, -⟩ | ⟨_, -, -, rfl, -⟩ |
    ⟨a, -, -, rfl, -⟩ | ⟨_, _, context₁, -, hsweep, hwf₁, hfree₁, rfl, -⟩
  · obtain ⟨hslot, -, hmutex⟩ := @hyTimerAdd_same context timerConfig ptr
    exact ⟨hyTimerAdd_wf hwf _ _, hmutex.trans hfree, hslot.trans hn⟩
  · exact ⟨hwf, hfree, hn⟩
  · exact ⟨hwf.remove a, hfree, hn⟩
  · exact ⟨advance_wf hwf₁, hfree₁, hsweep.slotNum_curSlot.1.trans hn⟩

/-- **Every reachable wheel keeps the invariant.** -/
theorem run_timerStep_idle {slotNum : ℕ} {contextOk listOk : Bool} {context₀ : TimerContext}
    {ops : List TimerOp} {outs : List TimerOut} (hslot : 1 ≤ slotNum)
    (hcreate : hyTimerCreate slotNum contextOk listOk = some context₀)
    (hrun : run timerStep context₀ ops = some (context, outs)) : Idle slotNum context := by
  obtain ⟨hwf, hfree, hn, -⟩ := hyTimerCreate_wf hslot hcreate
  refine run_invariant (fun _ _ _ _ h _ hs => timerStep_idle h hs)
    (⟨hwf, hfree, hn⟩ : Idle slotNum context₀) (fun _ _ => (trivial : True)) hrun

end HyUtils.TimerWheel
