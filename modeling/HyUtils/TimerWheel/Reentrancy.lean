import HyUtils.TimerWheel.Fate

/-!
# Callbacks that call the module

The loop calls a callback with the mutex held. A callback that adds timers is harmless: they go to
the ends of the lists, and the saved successor stays where it is. A callback that deletes a live
timer locks the mutex again and blocks, before anything is freed.

## Main definitions

* `DeletesLive`: a callback deletes a timer that is live when it does
* `RoundSafe`: the callback called in a round does not

## Main results

* `runCallback_of_not_deletesLive`, `runCallback_of_deletesLive`: the two kinds of callback
* `iter_fault`: a round that goes wrong blocks, and never reads a freed timer
* `tick_finishes_iff`: a tick finishes exactly when each of its rounds is safe
-/

namespace HyUtils.TimerWheel

open Runs SavedSuccessor

variable {context context' : TimerContext} {a : Addr} {timer : Timer}
  {script : List CallbackOp}

/-! ## Callbacks -/

/-- The callback deletes a timer that is live when it does. -/
def DeletesLive : TimerContext → List CallbackOp → Prop
  | _, [] => False
  | context, .add timerConfig ptr :: script =>
    DeletesLive (hyTimerAdd context timerConfig ptr).1 script
  | context, .del timerHandle :: script =>
    (∃ a, timerHandle = some a ∧ (context.heap a).isSome) ∨ DeletesLive context script

/-- `context'` is `context` with timers added. -/
structure Extends (context context' : TimerContext) : Prop where
  slotNum : context'.slotNum = context.slotNum
  curSlot : context'.curSlot = context.curSlot
  mutex : context'.mutex = context.mutex
  listHead : ∀ i, ∃ new, context'.listHead i = context.listHead i ++ new
  heap : ∀ a, (context.heap a).isSome → context'.heap a = context.heap a

theorem Extends.refl (context : TimerContext) : Extends context context :=
  ⟨rfl, rfl, rfl, fun _ => ⟨[], (List.append_nil _).symm⟩, fun _ _ => rfl⟩

theorem Extends.trans {context'' : TimerContext} (h : Extends context context')
    (h' : Extends context' context'') : Extends context context'' := by
  refine ⟨h'.slotNum.trans h.slotNum, h'.curSlot.trans h.curSlot, h'.mutex.trans h.mutex,
    fun i => ?_, fun a ha => ?_⟩
  · obtain ⟨new, hnew⟩ := h.listHead i
    obtain ⟨new', hnew'⟩ := h'.listHead i
    exact ⟨new ++ new', by rw [hnew', hnew, List.append_assoc]⟩
  · have heq := h.heap a ha
    rw [h'.heap a (by rwa [heq]), heq]

theorem hyTimerAdd_extends (context : TimerContext) (timerConfig : HyTimerConfig)
    (ptr : Option Addr) : Extends context (hyTimerAdd context timerConfig ptr).1 := by
  rcases hyTimerAdd_cases context timerConfig ptr with hadd | ⟨b, hfree, hadd⟩
  · rw [hadd]
    exact .refl context
  · rw [hadd]
    refine ⟨rfl, rfl, rfl, fun i => ⟨_, listAddTail_listHead ..⟩, ?_⟩
    intro a ha
    have hne : a ≠ b := by
      rintro rfl
      rw [hfree] at ha
      cases ha
    exact store_heap_of_ne _ _ hne

/-- The repeat timers a callback adds have a positive delay. -/
def PositiveScript (script : List CallbackOp) : Prop :=
  ∀ timerConfig ptr, .add timerConfig ptr ∈ script →
    timerConfig.repeatFlag = hyTimerModeRepeat → 1 ≤ timerConfig.expires

/-- **A callback that deletes no live timer** only adds timers. -/
theorem runCallback_of_not_deletesLive (hwf : context.Wf) (h : ¬ DeletesLive context script) :
    ∃ context', runCallback context script = .ok context' ∧ context'.Wf ∧
      Extends context context' ∧
      (PositiveRepeats context → PositiveScript script → PositiveRepeats context') := by
  -- Induction on the calls; the first keeps the wheel well formed for the others.
  induction script generalizing context with
  | nil => exact ⟨context, rfl, hwf, .refl context, fun h _ => h⟩
  | cons op script ih =>
    cases op with
    | add timerConfig ptr =>
      obtain ⟨context', hrun, hwf', hext, hpos⟩ := ih (hyTimerAdd_wf hwf timerConfig ptr) h
      refine ⟨context', hrun, hwf', (hyTimerAdd_extends context timerConfig ptr).trans hext,
        fun hp hs => hpos (hp.add (hs _ _ List.mem_cons_self) ptr) fun c p hmem => ?_⟩
      exact hs c p (List.mem_cons_of_mem _ hmem)
    | del handle =>
      obtain ⟨hhandle, hscript⟩ := not_or.mp h
      obtain ⟨context', hrun, hwf', hext, hpos⟩ := ih hwf hscript
      refine ⟨context', ?_, hwf', hext,
        fun hp hs => hpos hp fun c p hmem => hs c p (List.mem_cons_of_mem _ hmem)⟩
      cases handle with
      | none => exact hrun
      | some a =>
        -- the handle names no live timer, so no slot list holds it
        have ha : context.heap a = none := by
          rw [← Option.not_isSome_iff_eq_none]
          exact fun ha => hhandle ⟨a, rfl, ha⟩
        rw [runCallback, hyTimerDel_of_dead hwf ha]
        exact hrun

/-- **A callback that deletes a live timer** blocks, the mutex being held. -/
theorem runCallback_of_deletesLive (hwf : context.Wf) (hlock : context.mutex = true)
    (h : DeletesLive context script) : runCallback context script = .error .deadlock := by
  induction script generalizing context with
  | nil => exact h.elim
  | cons op script ih =>
    cases op with
    | add timerConfig ptr =>
      exact ih (hyTimerAdd_wf hwf timerConfig ptr)
        ((hyTimerAdd_same timerConfig ptr).2.2.trans hlock) h
    | del handle =>
      cases handle with
      | none =>
        rcases h with ⟨a, ha, -⟩ | h
        · cases ha
        · exact ih hwf hlock h
      | some a =>
        by_cases ha : (context.heap a).isSome
        · -- the call blocks here, whatever comes after it
          rw [runCallback, hyTimerDel_locked hwf hlock ha]
          rfl
        · rw [Option.not_isSome_iff_eq_none] at ha
          rw [runCallback, hyTimerDel_of_dead hwf ha]
          rcases h with ⟨b, hb, hlive⟩ | h
          · obtain rfl := Option.some.inj hb
            rw [ha] at hlive
            cases hlive
          · exact ih hwf hlock h

theorem hyTimerAdd_mutex (context : TimerContext) (timerConfig : HyTimerConfig)
    (ptr : Option Addr) (b : Bool) :
    (hyTimerAdd { context with mutex := b } timerConfig ptr).1 =
      { (hyTimerAdd context timerConfig ptr).1 with mutex := b } := by
  cases hm : context.malloc ptr with
  | none =>
    have hm' : { context with mutex := b }.malloc ptr = none := hm
    rw [hyTimerAdd_of_malloc_none hm, hyTimerAdd_of_malloc_none hm']
  | some a =>
    have hm' : { context with mutex := b }.malloc ptr = some a := hm
    rw [hyTimerAdd_of_malloc hm, hyTimerAdd_of_malloc hm']
    rfl

/-- Whether a callback deletes a live timer does not depend on the mutex. -/
theorem deletesLive_mutex (b : Bool) :
    DeletesLive { context with mutex := b } script ↔ DeletesLive context script := by
  induction script generalizing context with
  | nil => exact Iff.rfl
  | cons op script ih =>
    cases op with
    | add timerConfig ptr =>
      rw [DeletesLive, DeletesLive, hyTimerAdd_mutex]
      exact ih
    | del handle => exact or_congr Iff.rfl ih

/-! ## Rounds -/

theorem TimerContext.Wf.setMutex (h : context.Wf) (b : Bool) : { context with mutex := b }.Wf :=
  ⟨h.curSlot_lt, h.nodup, h.unique, h.slot_lt, h.live_iff⟩

theorem invoke_eq (hfree : context.mutex = false) :
    invoke script context timer =
      (if timer.timerConfig.timerCb.isSome then runCallback { context with mutex := true } script
        else .ok { context with mutex := true }).map TimerContext.unlock := by
  rw [invoke, TimerContext.lock, hfree]
  cases timer.timerConfig.timerCb with
  | none => rfl
  | some cb =>
    change (runCallback { context with mutex := true } script).bind (fun c => .ok c.unlock) =
      (runCallback { context with mutex := true } script).map TimerContext.unlock
    cases runCallback { context with mutex := true } script <;> rfl

/-- The callback of a timer that is due only adds timers, if it deletes none. -/
theorem invoke_of_safe (hwf : context.Wf) (hfree : context.mutex = false)
    (h : timer.timerConfig.timerCb.isSome → ¬ DeletesLive context script) :
    ∃ context', invoke script context timer = .ok context' ∧ context'.Wf ∧
      context'.mutex = false ∧ Extends context context' ∧
      (PositiveRepeats context → PositiveScript script → PositiveRepeats context') := by
  rw [invoke_eq hfree]
  obtain ⟨slotNum, curSlot, mutex, listHead, heap⟩ := context
  obtain rfl : mutex = false := hfree
  by_cases hcb : timer.timerConfig.timerCb.isSome
  · obtain ⟨context', hrun, hwf', hext, hpos⟩ := runCallback_of_not_deletesLive
      (hwf.setMutex true) (mt (deletesLive_mutex true).mp (h hcb))
    rw [if_pos hcb, hrun]
    exact ⟨_, rfl, hwf'.setMutex false, rfl,
      ⟨hext.slotNum, hext.curSlot, rfl, hext.listHead, hext.heap⟩, hpos⟩
  · rw [if_neg hcb]
    exact ⟨_, rfl, hwf, rfl, .refl _, fun h _ => h⟩

theorem invoke_of_deletesLive (hwf : context.Wf) (hfree : context.mutex = false)
    (hcb : timer.timerConfig.timerCb.isSome) (h : DeletesLive context script) :
    invoke script context timer = .error .deadlock := by
  rw [invoke_eq hfree, if_pos hcb, runCallback_of_deletesLive (hwf.setMutex true) rfl
    ((deletesLive_mutex true).mpr h)]
  rfl

/-- The callback called in a round, if one is, deletes no live timer. -/
def RoundSafe (walk : Walk) (script : List CallbackOp) : Prop :=
  ∀ a timer, walk.pos = some a → walk.context.heap a = some timer → timer.rotation = 0 →
    timer.timerConfig.timerCb.isSome → ¬ DeletesLive walk.context script

/-- **A safe round** completes, and the walk goes on. -/
theorem iter_of_safe {walk : Walk} {q : List Addr} (h : Walking walk q)
    (hsafe : RoundSafe walk script) :
    ∃ walk' calls q', iter script walk = .ok (walk', calls) ∧ Walking walk' q' ∧
      (PositiveRepeats walk.context → PositiveScript script → PositiveRepeats walk'.context) := by
  cases q with
  | nil => exact ⟨walk, [], [], iter_nil h script, h, fun h _ => h⟩
  | cons a rest =>
    obtain ⟨timer, ht⟩ := h.live List.mem_cons_self
    rcases Nat.eq_zero_or_pos timer.rotation with hrot | hrot
    · -- due: the callback adds timers behind the others, and its own is still there
      obtain ⟨context, hcb, hwf, hfree, hext, hpos⟩ :=
        invoke_of_safe h.wf h.unlocked (hsafe a timer h.pos ht hrot)
      obtain ⟨new, hnew⟩ := hext.listHead walk.context.curSlot
      have ht' : context.heap a = some timer := by rw [hext.heap a (by rw [ht]; rfl), ht]
      obtain ⟨walk', hi, hw, hc⟩ :=
        iter_fire h ht hrot hcb hwf hfree ht' (by rw [hext.curSlot, hnew])
      exact ⟨walk', _, _, hi, hw, fun hp hs => hc ▸ (hpos hp hs).fire ht'⟩
    · obtain ⟨walk', hi, hw, hc⟩ := iter_wait h ht hrot script
      exact ⟨walk', [], rest, hi, hw, fun hp _ => hc ▸ hp.store ht _⟩

/-- **A round that is not safe** blocks. -/
theorem iter_of_not_safe {walk : Walk} {q : List Addr} (h : Walking walk q)
    (hsafe : ¬ RoundSafe walk script) : iter script walk = .error .deadlock := by
  simp only [RoundSafe, not_forall, not_not] at hsafe
  obtain ⟨a, timer, hpos, ht, hrot, hcb, hdel⟩ := hsafe
  have hvisit : visit script walk.context a = .error .deadlock := by
    rw [visit, ht]
    simp only [hrot, gt_iff_lt, Nat.lt_irrefl, if_false, bind, Except.bind,
      invoke_of_deletesLive h.wf h.unlocked hcb hdel]
  rw [iter, hpos]
  simp only [hvisit, bind, Except.bind]

/-- **A round that goes wrong** blocks, and never reads a freed timer. -/
theorem iter_fault {walk : Walk} {q : List Addr} {fault : Fault} (h : Walking walk q)
    (hi : iter script walk = .error fault) : fault = .deadlock := by
  by_cases hsafe : RoundSafe walk script
  · obtain ⟨_, _, _, hok, -⟩ := iter_of_safe h hsafe
    rw [hok] at hi
    cases hi
  · rw [iter_of_not_safe h hsafe] at hi
    exact (Except.error.inj hi).symm

theorem walkStep_iff {walk : Walk} {q : List Addr} (h : Walking walk q) :
    (∃ walk' calls, walkStep walk script = some (walk', calls) ∧ True) ↔ RoundSafe walk script := by
  constructor
  · rintro ⟨walk', calls, hs, -⟩
    by_contra hsafe
    rw [walkStep, iter_of_not_safe h hsafe] at hs
    cases hs
  · intro hsafe
    obtain ⟨walk', calls, -, hi, -⟩ := iter_of_safe h hsafe
    exact ⟨walk', calls, walkStep_of_iter hi, trivial⟩

theorem walkStep_walking {walk walk' : Walk} {q calls : List Addr} (h : Walking walk q)
    (hs : walkStep walk script = some (walk', calls)) :
    ∃ q', Walking walk' q' ∧
      (PositiveRepeats walk.context → PositiveScript script → PositiveRepeats walk'.context) := by
  obtain ⟨w, c, q', hi, hw, hpos⟩ := iter_of_safe h ((walkStep_iff h).mp ⟨_, _, hs, trivial⟩)
  obtain ⟨rfl, -⟩ := Prod.mk.inj (Option.some.inj ((walkStep_of_iter hi).symm.trans hs))
  exact ⟨q', hw, hpos⟩

/-! ## Whole ticks -/

/-- **A tick whose callbacks call the module**: its rounds complete, blocking nowhere and reading no
freed timer, exactly when no callback deletes a live timer; and when the repeat timers have a
positive delay, and after finitely many rounds the callbacks add no more, this is exactly when the
tick finishes. -/
theorem tick_finishes_iff (hwf : context.Wf) (hfree : context.mutex = false)
    (scripts : List (List CallbackOp)) :
    ∃ walk, startWalk context = .ok walk ∧
      ((run walkStep walk scripts).isSome ↔ EachStep walkStep RoundSafe walk scripts) ∧
      (PositiveRepeats context → (∀ script ∈ scripts, PositiveScript script) →
        ((∃ fuel, (tick context (scripts ++ List.replicate fuel [])).isSome) ↔
          EachStep walkStep RoundSafe walk scripts)) := by
  obtain ⟨walk, hstart, rfl, hw⟩ := startWalk_spec hwf hfree
  have hiff : (run walkStep walk scripts).isSome ↔ EachStep walkStep RoundSafe walk scripts := by
    rw [← allSteps_true_iff]
    refine allSteps_iff_eachStep (fun walk => ∃ q, Walking walk q) ?_
      (fun _ _ ⟨_, h⟩ _ => walkStep_iff h) ⟨_, hw⟩ (fun _ _ => (trivial : True))
    rintro w script w' calls ⟨q, h⟩ - hs -
    obtain ⟨q', h', -⟩ := walkStep_walking h hs
    exact ⟨q', h'⟩
  refine ⟨walk, hstart, hiff, fun hpos hscripts => ⟨?_, fun hsafe => ?_⟩⟩
  · -- a tick that finishes completes its first rounds
    rintro ⟨fuel, htick⟩
    obtain ⟨⟨context', calls⟩, htick⟩ := Option.isSome_iff_exists.mp htick
    obtain ⟨w, w', calls', hstart', hrun, -⟩ := tick_eq_some_iff.mp htick
    obtain rfl := Except.ok.inj (hstart.symm.trans hstart')
    obtain ⟨u, calls₁, -, hrun₁, -⟩ := run_append_eq_some.mp hrun
    exact hiff.mp (by rw [hrun₁]; rfl)
  · -- after the rounds with calls, the walk ends as without them
    obtain ⟨⟨w, calls₁⟩, hrun₁⟩ := Option.isSome_iff_exists.mp (hiff.mpr hsafe)
    have hinv : (∃ q, Walking w q) ∧ PositiveRepeats w.context := by
      refine run_invariant (P := fun w => (∃ q, Walking w q) ∧ PositiveRepeats w.context) ?_
        ⟨⟨_, hw⟩, hpos⟩ hscripts hrun₁
      rintro v script v' calls ⟨⟨q, h⟩, hp⟩ hscript hs
      obtain ⟨q', h', hp'⟩ := walkStep_walking h hs
      exact ⟨⟨q', h'⟩, hp' hp hscript⟩
    obtain ⟨⟨q, hw'⟩, hpos'⟩ := hinv
    obtain ⟨w', calls₂, hrun₂, hend⟩ := walk_ends hw' hpos' (Nat.le_refl _)
    refine ⟨roundsLeft w.context q, Option.isSome_iff_exists.mpr ⟨_, tick_eq_some_iff.mpr
      ⟨walk, w', calls₁ ++ calls₂, hstart, ?_, hend, rfl, rfl⟩⟩⟩
    exact run_append_eq_some.mpr ⟨w, calls₁, calls₂, hrun₁, hrun₂, rfl⟩

/-- The callback of a single shot that is due deletes its own timer. -/
theorem callback_deletes_itself :
    ∃ context₀ context outs walk, hyTimerCreate 1 true true = some context₀ ∧
      run timerStep context₀ [.add ⟨0, 0, some 0, 0⟩ (some 100)] = some (context, outs) ∧
      startWalk context = .ok walk ∧ iter [.del (some 100)] walk = .error .deadlock :=
  ⟨_, _, _, _, rfl, rfl, rfl, rfl⟩

/-- The callback of a single shot that is due adds a repeat timer to the slot being walked. -/
theorem tick_finishes_iff_add :
    ∃ context walk, startWalk context = .ok walk ∧
      ((run walkStep walk [[.add ⟨1, 1, some 0, 0⟩ (some 101)]]).isSome ↔
        EachStep walkStep RoundSafe walk [[.add ⟨1, 1, some 0, 0⟩ (some 101)]]) ∧
      (PositiveRepeats context →
        (∀ script ∈ [[.add ⟨1, 1, some 0, 0⟩ (some 101)]], PositiveScript script) →
        ((∃ fuel, (tick context
          ([[.add ⟨1, 1, some 0, 0⟩ (some 101)]] ++ List.replicate fuel [])).isSome) ↔
            EachStep walkStep RoundSafe walk [[.add ⟨1, 1, some 0, 0⟩ (some 101)]])) :=
  ⟨_, tick_finishes_iff (run_timerStep_idle (by decide)
    (show hyTimerCreate 1 true true = some _ from rfl)
    (show run timerStep _ [.add ⟨0, 0, some 0, 0⟩ (some 100)] = some (_, _) from rfl)).1 rfl _⟩

end HyUtils.TimerWheel
