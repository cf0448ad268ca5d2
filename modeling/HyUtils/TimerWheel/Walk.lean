import Mathlib.Algebra.Order.Ring.Nat
import HyUtils.TimerWheel.Invariant

/-!
# The walk over a slot

The loop of `_timer_loop_cb` walks the list of the current slot by saved successors, while its body
leaves the timer it is at in place, frees it, or puts it at the end of a list, which may be the list
being walked. Seen from the timers still to be visited the walk is simple: the first of them is
taken off, and is put back behind the others when its new place is the current slot and it was not
the last.

## Main definitions

* `Walking walk q`: the walk is in front of the timers `q` of the current slot
* `Sweep context q context' calls`: the rounds of a tick over the timers `q`

## Main results

* `iter_wait`, `iter_fire`: one round
* `run_walkStep_sweep`: a walk that ends is a sweep
* `walk_ends`: with repeat timers of positive delay, the walk ends
-/

namespace HyUtils.TimerWheel

open Runs SavedSuccessor

/-! ## One round -/

/-- The timer is put back on the slot it is taken from. -/
def Timer.returns (slotNum : ℕ) (timer : Timer) : Bool :=
  timer.timerConfig.repeatFlag == hyTimerModeRepeat && timer.timerConfig.expires % slotNum == 0

theorem Timer.returns_iff {slotNum : ℕ} {timer : Timer} : timer.returns slotNum = true ↔
    timer.timerConfig.repeatFlag = hyTimerModeRepeat ∧ timer.timerConfig.expires % slotNum = 0 := by
  rw [Timer.returns, Bool.and_eq_true, beq_iff_eq, beq_iff_eq]

/-- The walk is in front of the timers `q`, the last of the current slot. -/
structure Walking (walk : Walk) (q : List Addr) : Prop where
  wf : walk.context.Wf
  unlocked : walk.context.mutex = false
  suffix : q <:+ walk.context.listHead walk.context.curSlot
  pos : walk.pos = q.head?
  n : q ≠ [] → walk.n = q.tail.head?

variable {context context' : TimerContext} {walk : Walk} {q rest : List Addr} {a : Addr}
  {timer : Timer} {script : List CallbackOp}

theorem Walking.nodup (h : Walking walk q) : q.Nodup := (h.wf.nodup _).sublist h.suffix.sublist

theorem Walking.live (h : Walking walk q) (ha : a ∈ q) :
    ∃ timer, walk.context.heap a = some timer := h.wf.live (h.suffix.mem ha)

/-- The step to the saved successor. -/
theorem exists_walking (hwf : context.Wf) (hfree : context.mutex = false)
    (hsuf : q <:+ context.listHead context.curSlot) :
    ∃ n, listNextEntry context q.head? = .ok n ∧ Walking ⟨context, q.head?, n⟩ q := by
  cases q with
  | nil => exact ⟨_, rfl, hwf, hfree, hsuf, rfl, fun h => absurd rfl h⟩
  | cons b rest =>
    -- the successor of a live entry is read from the list as it is now
    obtain ⟨timer, ht⟩ := hwf.live (hsuf.mem List.mem_cons_self)
    obtain ⟨pre, hpre⟩ := id hsuf
    have hnd := hwf.nodup context.curSlot
    refine ⟨rest.head?, ?_, hwf, hfree, hsuf, rfl, fun _ => rfl⟩
    rw [← hpre] at hnd
    rw [List.head?_cons, listNextEntry, ht, ← hpre, succIn_append_cons hnd]
    rfl

theorem startWalk_spec (hwf : context.Wf) (hfree : context.mutex = false) :
    ∃ walk, startWalk context = .ok walk ∧ walk.context = context ∧
      Walking walk (context.listHead context.curSlot) := by
  obtain ⟨n, hn, hw⟩ := exists_walking hwf hfree List.suffix_rfl
  exact ⟨_, by rw [startWalk, hn]; rfl, rfl, hw⟩

theorem iter_nil (h : Walking walk []) (script : List CallbackOp) :
    iter script walk = .ok (walk, []) := by
  rw [iter, h.pos]
  rfl

theorem iter_eq {calls : List Addr} {n : Option Addr} (hpos : walk.pos = some a)
    (hvisit : visit script walk.context a = .ok (context, calls))
    (hn : listNextEntry context walk.n = .ok n) :
    iter script walk = .ok (⟨context, walk.n, n⟩, calls) := by
  rw [iter, hpos]
  simp only [hvisit, bind, Except.bind, hn, pure, Except.pure]

/-- **A round at a timer with rounds to wait** takes one off. -/
theorem iter_wait (h : Walking walk (a :: rest)) (ht : walk.context.heap a = some timer)
    (hrot : 0 < timer.rotation) (script : List CallbackOp) :
    ∃ walk', iter script walk = .ok (walk', []) ∧ Walking walk' rest ∧
      walk'.context = walk.context.store a { timer with rotation := timer.rotation - 1 } := by
  have hwf := h.wf.store (by rw [ht]; rfl) { timer with rotation := timer.rotation - 1 }
  obtain ⟨n, hn, hw⟩ := exists_walking hwf h.unlocked ((List.suffix_cons a rest).trans h.suffix)
  have hn' : walk.n = rest.head? := h.n (List.cons_ne_nil _ _)
  refine ⟨_, iter_eq h.pos ?_ (hn' ▸ hn), hn' ▸ hw, rfl⟩
  rw [visit, ht]
  exact if_pos hrot

theorem mod_add_cur_eq (hwf : context.Wf) (e : ℕ) :
    (e % context.slotNum + context.curSlot) % context.slotNum = context.curSlot ↔
      e % context.slotNum = 0 := by
  have hlt := Nat.mod_lt e hwf.slotNum_pos
  have hc := hwf.curSlot_lt
  rcases Nat.lt_or_ge (e % context.slotNum + context.curSlot) context.slotNum with h | h
  · rw [Nat.mod_eq_of_lt h]
    omega
  · rw [Nat.mod_eq_sub_mod h, Nat.mod_eq_of_lt (by omega)]
    omega

/-- The current slot after a timer on it is fired. -/
theorem fire_listHead_curSlot (hwf : context.Wf) (a : Addr) (timer : Timer) :
    (fire context a timer).listHead context.curSlot =
      (context.listHead context.curSlot).erase a ++
        if timer.returns context.slotNum then [a] else [] := by
  by_cases hr : timer.timerConfig.repeatFlag = hyTimerModeRepeat
  · have hret : timer.returns context.slotNum = true ↔ context.curSlot =
        (timer.timerConfig.expires % context.slotNum + context.curSlot) % context.slotNum := by
      rw [Timer.returns_iff, @eq_comm _ context.curSlot, mod_add_cur_eq hwf]
      exact and_iff_right hr
    rw [fire_repeat hr, listAddTail_listHead]
    simp only [store_listHead, free_listHead, listDel_listHead, hret]
  · have hret : timer.returns context.slotNum = false := by
      rw [← Bool.not_eq_true, Timer.returns_iff]
      exact fun h => hr h.1
    rw [fire_once hr, hret]
    simp

@[simp] theorem fire_slotNum : (fire context a timer).slotNum = context.slotNum := by
  unfold fire
  dsimp only
  split_ifs <;> rfl

@[simp] theorem fire_curSlot : (fire context a timer).curSlot = context.curSlot := by
  unfold fire
  dsimp only
  split_ifs <;> rfl

@[simp] theorem fire_mutex : (fire context a timer).mutex = context.mutex := by
  unfold fire
  dsimp only
  split_ifs <;> rfl

/-- **A round at a timer that is due**, whose callback leaves its list in place but for timers
added behind it. -/
theorem iter_fire (h : Walking walk (a :: rest)) (ht : walk.context.heap a = some timer)
    (hrot : timer.rotation = 0) {context : TimerContext} {new : List Addr}
    (hcb : invoke script walk.context timer = .ok context) (hwf : context.Wf)
    (hfree : context.mutex = false) (ht' : context.heap a = some timer)
    (hnew : context.listHead context.curSlot =
      walk.context.listHead walk.context.curSlot ++ new) :
    ∃ walk', iter script walk =
        .ok (walk', if timer.timerConfig.timerCb.isSome then [a] else []) ∧
      Walking walk' (toVisit rest (new ++ if timer.returns context.slotNum then [a] else [])) ∧
      walk'.context = fire context a timer := by
  -- The timer leaves its place; what was added and the timer itself come behind the others.
  have hsuf : toVisit rest (new ++ if timer.returns context.slotNum then [a] else []) <:+
      (fire context a timer).listHead (fire context a timer).curSlot := by
    obtain ⟨pre, hpre⟩ := h.suffix
    have hnd := hwf.nodup context.curSlot
    rw [hnew, ← hpre, List.append_assoc, List.cons_append] at hnd
    rw [fire_curSlot, fire_listHead_curSlot hwf, hnew, ← hpre, List.append_assoc, List.cons_append,
      erase_append_cons hnd]
    exact (toVisit_suffix _ _).trans ⟨pre, by simp⟩
  obtain ⟨n, hn, hw⟩ := exists_walking (fire_wf hwf a timer) (by rw [fire_mutex, hfree]) hsuf
  have hn' : walk.n = rest.head? := h.n (List.cons_ne_nil _ _)
  -- The saved successor is still the next of them.
  rw [head?_toVisit, ← hn'] at hn hw
  refine ⟨_, iter_eq h.pos ?_ hn, hw, rfl⟩
  rw [visit, ht]
  simp only [hrot, gt_iff_lt, Nat.lt_irrefl, if_false, hcb, bind, Except.bind, ht', pure,
    Except.pure]

/-! ## Whole walks, with callbacks that make no calls -/

/-- The rounds of a tick over the timers `q` of the current slot. -/
inductive Sweep : TimerContext → List Addr → TimerContext → List Addr → Prop
  | nil (context : TimerContext) : Sweep context [] context []
  | wait {context context' : TimerContext} {a : Addr} {rest calls : List Addr} {timer : Timer}
      (ht : context.heap a = some timer) (hrot : 0 < timer.rotation)
      (hrest : Sweep (context.store a { timer with rotation := timer.rotation - 1 }) rest context'
        calls) : Sweep context (a :: rest) context' calls
  | fire {context context' : TimerContext} {a : Addr} {rest calls : List Addr} {timer : Timer}
      (ht : context.heap a = some timer) (hrot : timer.rotation = 0)
      (hrest : Sweep (fire context a timer)
        (toVisit rest (if timer.returns context.slotNum then [a] else [])) context' calls) :
      Sweep context (a :: rest) context'
        ((if timer.timerConfig.timerCb.isSome then [a] else []) ++ calls)

/-- A callback that makes no calls leaves the wheel as it is. -/
theorem invoke_nil (hfree : context.mutex = false) (timer : Timer) :
    invoke [] context timer = .ok context := by
  obtain ⟨slotNum, curSlot, mutex, listHead, heap⟩ := context
  obtain rfl : mutex = false := hfree
  rw [invoke]
  cases timer.timerConfig.timerCb <;> rfl

/-- **A round at a timer that is due**, whose callback makes no calls. -/
theorem iter_fire_nil (h : Walking walk (a :: rest)) (ht : walk.context.heap a = some timer)
    (hrot : timer.rotation = 0) :
    ∃ walk', iter [] walk =
        .ok (walk', if timer.timerConfig.timerCb.isSome then [a] else []) ∧
      Walking walk' (toVisit rest (if timer.returns walk.context.slotNum then [a] else [])) ∧
      walk'.context = fire walk.context a timer :=
  iter_fire h ht hrot (invoke_nil h.unlocked timer) h.wf h.unlocked ht (List.append_nil _).symm

theorem walkStep_of_iter {walk' : Walk} {calls : List Addr}
    (h : iter script walk = .ok (walk', calls)) : walkStep walk script = some (walk', calls) := by
  rw [walkStep, h]
  rfl

/-- **A walk that ends is a sweep.** -/
theorem run_walkStep_sweep {fuel : ℕ} {walk' : Walk} {calls : List (List Addr)}
    (h : Walking walk q) (hrun : run walkStep walk (List.replicate fuel []) = some (walk', calls))
    (hend : walk'.pos.isNone) :
    Sweep walk.context q walk'.context calls.flatten ∧ Walking walk' [] := by
  induction fuel generalizing walk q calls with
  | zero =>
    -- no rounds: the walk was at the head of the list from the start
    obtain ⟨rfl, rfl⟩ : walk = walk' ∧ calls = [] := by simpa [eq_comm] using hrun
    obtain rfl : q = [] := by
      rw [h.pos, Option.isNone_iff_eq_none, List.head?_eq_none_iff] at hend
      exact hend
    exact ⟨.nil _, h⟩
  | succ fuel ih =>
    obtain ⟨walk₁, calls₁, calls', hs, hrun', rfl⟩ := run_cons_eq_some.mp hrun
    have hs' : ∀ {w c}, iter [] walk = .ok (w, c) → w = walk₁ ∧ c = calls₁ := fun hi =>
      Prod.mk.inj (Option.some.inj ((walkStep_of_iter hi).symm.trans hs))
    rw [List.flatten_cons]
    cases q with
    | nil =>
      obtain ⟨rfl, rfl⟩ := hs' (iter_nil h [])
      exact ih h hrun'
    | cons a rest =>
      obtain ⟨timer, ht⟩ := h.live List.mem_cons_self
      rcases Nat.eq_zero_or_pos timer.rotation with hrot | hrot
      · obtain ⟨w, hi, hw, hc⟩ := iter_fire_nil h ht hrot
        obtain ⟨rfl, rfl⟩ := hs' hi
        obtain ⟨hsweep, hend'⟩ := ih hw hrun'
        exact ⟨.fire ht hrot (hc ▸ hsweep), hend'⟩
      · obtain ⟨w, hi, hw, hc⟩ := iter_wait h ht hrot []
        obtain ⟨rfl, rfl⟩ := hs' hi
        obtain ⟨hsweep, hend'⟩ := ih hw hrun'
        exact ⟨.wait ht hrot (hc ▸ hsweep), hend'⟩

/-! ## Ends of walks -/

/-- The repeat timers have a positive delay. -/
def PositiveRepeats (context : TimerContext) : Prop :=
  ∀ a timer, context.heap a = some timer → timer.timerConfig.repeatFlag = hyTimerModeRepeat →
    1 ≤ timer.timerConfig.expires

/-- The timer is due and is put back on the slot it is taken from. -/
def requeues (context : TimerContext) (a : Addr) : Bool :=
  (context.heap a).any fun timer => timer.rotation == 0 && timer.returns context.slotNum

theorem requeues_of_heap (ht : context.heap a = some timer) :
    requeues context a = (timer.rotation == 0 && timer.returns context.slotNum) := by
  rw [requeues, ht]
  rfl

/-- The rounds left in front of the timers `q`. -/
def roundsLeft (context : TimerContext) (q : List Addr) : ℕ :=
  (q.map fun a => if requeues context a then 2 else 1).sum

@[simp] theorem roundsLeft_nil : roundsLeft context [] = 0 := rfl

theorem roundsLeft_cons : roundsLeft context (a :: rest) =
    (if requeues context a then 2 else 1) + roundsLeft context rest := rfl

theorem roundsLeft_concat : roundsLeft context (rest ++ [a]) =
    roundsLeft context rest + if requeues context a then 2 else 1 := by
  simp [roundsLeft]

theorem roundsLeft_congr (hslot : context'.slotNum = context.slotNum)
    (hheap : ∀ b ∈ q, context'.heap b = context.heap b) :
    roundsLeft context' q = roundsLeft context q := by
  have hreq : ∀ b ∈ q, requeues context' b = requeues context b := by
    intro b hb
    rw [requeues, requeues, hheap b hb, hslot]
  rw [roundsLeft, roundsLeft, List.map_congr_left fun b hb => by rw [hreq b hb]]

theorem fire_heap_of_ne {b : Addr} (h : b ≠ a) :
    (fire context a timer).heap b = context.heap b := by
  by_cases hr : timer.timerConfig.repeatFlag = hyTimerModeRepeat
  · rw [fire_repeat hr, listAddTail_heap, store_heap_of_ne _ _ h, free_heap_of_ne _ h, listDel_heap]
  · rw [fire_once hr, free_heap_of_ne _ h, listDel_heap]

theorem fire_heap_self_of_repeat (h : timer.timerConfig.repeatFlag = hyTimerModeRepeat) :
    (fire context a timer).heap a =
      some { timer with rotation := timer.timerConfig.expires / context.slotNum } := by
  rw [fire_repeat h, listAddTail_heap, store_heap_self]

theorem PositiveRepeats.store (h : PositiveRepeats context) (ht : context.heap a = some timer)
    (rotation : ℕ) : PositiveRepeats (context.store a { timer with rotation }) := by
  intro b t hb hrep
  by_cases hba : b = a
  · subst hba
    rw [store_heap_self] at hb
    obtain rfl := Option.some.inj hb
    exact h _ timer ht hrep
  · rw [store_heap_of_ne _ _ hba] at hb
    exact h b t hb hrep

theorem PositiveRepeats.fire (h : PositiveRepeats context) (ht : context.heap a = some timer) :
    PositiveRepeats (fire context a timer) := by
  intro b t hb hrep
  by_cases hba : b = a
  · subst hba
    by_cases hr : timer.timerConfig.repeatFlag = hyTimerModeRepeat
    · rw [fire_heap_self_of_repeat hr] at hb
      obtain rfl := Option.some.inj hb
      exact h _ timer ht hr
    · rw [fire_once hr, free_heap_self] at hb
      cases hb
  · rw [fire_heap_of_ne hba] at hb
    exact h b t hb hrep

/-- A timer put back on the slot it is taken from has a round to wait. -/
theorem requeues_fire_self (ht : timer.returns context.slotNum = true)
    (hpos : 1 ≤ timer.timerConfig.expires) : requeues (fire context a timer) a = false := by
  obtain ⟨hrep, hmod⟩ := Timer.returns_iff.mp ht
  have hdiv := Nat.mod_add_div timer.timerConfig.expires context.slotNum
  -- a positive multiple of the number of slots is at least one round
  have hne : timer.timerConfig.expires / context.slotNum ≠ 0 := by
    intro h0
    rw [hmod, h0, Nat.mul_zero] at hdiv
    omega
  rw [requeues_of_heap (fire_heap_self_of_repeat hrep), beq_false_of_ne hne, Bool.false_and]

/-- **Each round brings the end of the walk closer.** -/
theorem roundsLeft_fire (hpos : PositiveRepeats context) (hnd : (a :: rest).Nodup)
    (ht : context.heap a = some timer) (hrot : timer.rotation = 0) :
    roundsLeft (fire context a timer)
        (toVisit rest (if timer.returns context.slotNum then [a] else [])) + 1 ≤
      roundsLeft context (a :: rest) := by
  have hrest : roundsLeft (fire context a timer) rest = roundsLeft context rest := by
    refine roundsLeft_congr fire_slotNum fun b hb => fire_heap_of_ne ?_
    rintro rfl
    exact (List.nodup_cons.mp hnd).1 hb
  rw [roundsLeft_cons, requeues_of_heap ht, hrot, beq_self_eq_true, Bool.true_and]
  by_cases hret : timer.returns context.slotNum = true
  · -- it counted for two rounds, and counts for one behind the others
    rw [if_pos hret, if_pos hret, toVisit]
    split_ifs
    · rw [roundsLeft_nil]
      omega
    · rw [roundsLeft_concat, hrest,
        requeues_fire_self hret (hpos a timer ht (Timer.returns_iff.mp hret).1)]
      simp only [Bool.false_eq_true, if_false]
      omega
  · -- it is not visited again
    rw [if_neg hret, if_neg hret, toVisit_nil_right, hrest]
    omega

/-- **The walk ends**, when the repeat timers have a positive delay. -/
theorem walk_ends {fuel : ℕ} (h : Walking walk q) (hpos : PositiveRepeats walk.context)
    (hfuel : roundsLeft walk.context q ≤ fuel) :
    ∃ walk' calls, run walkStep walk (List.replicate fuel []) = some (walk', calls) ∧
      walk'.pos.isNone := by
  -- Induction on the rounds allowed: each round takes at least one off the rounds left.
  induction fuel generalizing walk q with
  | zero =>
    cases q with
    | nil => exact ⟨walk, [], rfl, by rw [h.pos]; rfl⟩
    | cons a rest =>
      rw [roundsLeft_cons] at hfuel
      split_ifs at hfuel <;> omega
  | succ fuel ih =>
    cases q with
    | nil =>
      -- the walk has ended, and stays where it is
      obtain ⟨walk', calls, hrun, hend⟩ := ih h hpos (Nat.zero_le _)
      exact ⟨walk', [] :: calls,
        run_cons_eq_some.mpr ⟨walk, [], calls, walkStep_of_iter (iter_nil h []), hrun, rfl⟩, hend⟩
    | cons a rest =>
      obtain ⟨timer, ht⟩ := h.live List.mem_cons_self
      rcases Nat.eq_zero_or_pos timer.rotation with hrot | hrot
      · obtain ⟨w, hi, hw, hc⟩ := iter_fire_nil h ht hrot
        have hle := roundsLeft_fire hpos h.nodup ht hrot
        obtain ⟨walk', calls, hrun, hend⟩ := ih hw (hc ▸ hpos.fire ht) (by rw [hc]; omega)
        exact ⟨walk', _ :: calls,
          run_cons_eq_some.mpr ⟨w, _, calls, walkStep_of_iter hi, hrun, rfl⟩, hend⟩
      · obtain ⟨w, hi, hw, hc⟩ := iter_wait h ht hrot []
        have hrest : roundsLeft w.context rest = roundsLeft walk.context rest := by
          rw [hc]
          refine roundsLeft_congr rfl fun b hb => store_heap_of_ne _ _ ?_
          rintro rfl
          exact (List.nodup_cons.mp h.nodup).1 hb
        rw [roundsLeft_cons] at hfuel
        obtain ⟨walk', calls, hrun, hend⟩ :=
          ih hw (hc ▸ hpos.store ht _) (by rw [hrest]; split_ifs at hfuel <;> omega)
        exact ⟨walk', _ :: calls,
          run_cons_eq_some.mpr ⟨w, _, calls, walkStep_of_iter hi, hrun, rfl⟩, hend⟩

/-! ## Ticks -/

theorem tick_eq_some_iff {scripts : List (List CallbackOp)} {calls : List Addr} :
    tick context scripts = some (context', calls) ↔
      ∃ walk walk' calls', startWalk context = .ok walk ∧
        run walkStep walk scripts = some (walk', calls') ∧ walk'.pos.isNone ∧
        context' = advance walk'.context ∧ calls = calls'.flatten := by
  have htoOption : ∀ {x : Except Fault Walk} {walk : Walk},
      x.toOption = some walk ↔ x = .ok walk := by
    intro x walk
    cases x <;> simp [Except.toOption]
  simp only [tick, Option.bind_eq_bind, Option.bind_eq_some_iff, htoOption, Prod.exists]
  constructor
  · rintro ⟨walk, hstart, walk', calls', hrun, hend⟩
    split_ifs at hend with hnone
    obtain ⟨rfl, rfl⟩ := Prod.mk.inj (Option.some.inj hend)
    exact ⟨walk, walk', calls', hstart, hrun, hnone, rfl, rfl⟩
  · rintro ⟨walk, walk', calls', hstart, hrun, hend, rfl, rfl⟩
    exact ⟨walk, hstart, walk', calls', hrun, if_pos hend⟩

/-- **A tick is a sweep of the current slot**, and `cur_slot` moves on. -/
theorem tick_sweep (hwf : context.Wf) (hfree : context.mutex = false) {fuel : ℕ} {calls : List Addr}
    (h : tick context (List.replicate fuel []) = some (context', calls)) :
    ∃ context₁, Sweep context (context.listHead context.curSlot) context₁ calls ∧ context₁.Wf ∧
      context₁.mutex = false ∧ context' = advance context₁ := by
  obtain ⟨walk, walk', calls', hstart, hrun, hend, rfl, rfl⟩ := tick_eq_some_iff.mp h
  obtain ⟨w, hstart', hc, hw⟩ := startWalk_spec hwf hfree
  obtain rfl : w = walk := by
    rw [hstart] at hstart'
    exact (Except.ok.inj hstart').symm
  obtain ⟨hsweep, hw'⟩ := run_walkStep_sweep hw hrun hend
  exact ⟨walk'.context, hc ▸ hsweep, hw'.wf, hw'.unlocked, rfl⟩

/-- **A tick completes**, when the repeat timers have a positive delay. -/
theorem tick_completes (hwf : context.Wf) (hfree : context.mutex = false)
    (hpos : PositiveRepeats context) {fuel : ℕ}
    (hfuel : roundsLeft context (context.listHead context.curSlot) ≤ fuel) :
    ∃ context' calls, tick context (List.replicate fuel []) = some (context', calls) := by
  obtain ⟨walk, hstart, rfl, hw⟩ := startWalk_spec hwf hfree
  obtain ⟨walk', calls, hrun, hend⟩ := walk_ends hw hpos hfuel
  exact ⟨_, _, tick_eq_some_iff.mpr ⟨walk, walk', calls, hstart, hrun, hend, rfl, rfl⟩⟩

end HyUtils.TimerWheel
