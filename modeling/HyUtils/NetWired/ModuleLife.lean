import HyUtils.Fifo.Refinement
import HyUtils.NetWired.Module
import HyUtils.NetWired.Records
import HyUtils.Thread.Lifecycle

/-!
# The life of the LED module

The thread of the module works on a context and a fifo that its owner creates before it and destroys
after it. No step uses memory that is freed, in every order, and after `HyNetWiredDestroy` nothing is
left. The inner loop of `_led_loop_cb` never looks at the flag, so that the thread ends is due to the
cancellation point it passes there.

## Main definitions

* `Ready`: what the thread works on is there
* `Lives`: what the steps keep, by the position of the owner
* `ModuleAllowed`: the calls in turn, when the first allocation and `pthread_create` succeed

## Main results

* `module_uses_live_memory`: no step uses freed memory, and a destroyed module leaves nothing
* `net_wired_destroy_returns`: `HyNetWiredDestroy` returns within eleven steps of the cancellation
-/

namespace HyUtils.NetWired

open Fifo Runs Thread

variable {stack : LedMode} {s t : NetModule} {mem mem' : NetMem} {context : NetContext}
  {fifo : FifoContext} {pos : LedPos} {op : ModuleOp} {out : ModuleOut}

/-! ## What the thread works on -/

/-- The context and the fifo are there. -/
def Ready (mem : NetMem) : Prop :=
  ∃ context fifo, mem.context = some context ∧ context.ledFifoHandle = true ∧
    mem.fifo = some fifo ∧ fifo.Wf

/-- The handle of the thread, as the context has it. -/
def ledThread (mem : NetMem) : Option Bool := mem.context.map NetContext.ledThreadHandle

/-- Taking a record leaves a fifo one. -/
theorem hyFifoGet_wf (h : fifo.Wf) (ledMode : LedMode) :
    ∃ fifo' bytes ret, hyFifoGet fifo (encode ledMode) 8 = some (fifo', bytes, ret) ∧ fifo'.Wf := by
  have hlen : (8 : UInt64).toNat ≤ (encode ledMode).length := by simp [encode]
  exact ⟨_, _, _, hyFifoGet_spec h (encode ledMode) 8 hlen,
    (advance_out h (readLen_le_used fifo 8) _).1⟩

/-- **A step of `_led_loop_cb`** on what is there. -/
theorem ledStep_ready (h : Ready mem) (pos : LedPos) :
    ∃ mem' next, ledStep mem pos = some (mem', next) ∧ Ready mem' ∧
      ledThread mem' = ledThread mem := by
  obtain ⟨context, fifo, hcontext, hhandle, hfifo, hwf⟩ := id h
  obtain ⟨step, ledMode⟩ := pos
  cases step with
  | flag =>
    by_cases hflag : context.exitFlag = 0
    · exact ⟨mem, .inl ⟨.getInfo, ledMode⟩, by simp [ledStep, hcontext, hflag], h, rfl⟩
    · exact ⟨mem, .inr (-1), by simp [ledStep, hcontext, hflag], h, rfl⟩
  | getInfo =>
    exact ⟨mem, .inl ⟨.usleep fifo.useCnt, ledMode⟩,
      by simp [ledStep, hcontext, hhandle, hfifo, hyFifoGetInfo], h, rfl⟩
  | usleep val => exact ⟨mem, .inl ⟨.blink val, ledMode⟩, by simp [ledStep, hcontext], h, rfl⟩
  | blink val =>
    exact ⟨{ mem with context := some (blinkLeds context ledMode).1 },
      .inl ⟨if val = 0 then .getInfo else .get, (blinkLeds context ledMode).2⟩,
      by simp [ledStep, hcontext], ⟨_, fifo, rfl, hhandle, hfifo, hwf⟩,
      by rw [ledThread, ledThread, hcontext]; rfl⟩
  | get =>
    obtain ⟨fifo', bytes, ret, hget, hwf'⟩ := hyFifoGet_wf hwf ledMode
    exact ⟨⟨some (keepRecord context (decode bytes)), some fifo'⟩, .inl ⟨.flag, decode bytes⟩,
      by simp [ledStep, hcontext, hhandle, hfifo, hget], ⟨_, fifo', rfl, hhandle, rfl, hwf'⟩,
      by rw [ledThread, ledThread, hcontext]; rfl⟩

theorem ledLoopCb_works (stack : LedMode) : Works (ledLoopCb stack) Ready fun mem _ => Ready mem where
  entry h := h
  step h := by
    obtain ⟨mem', next, hs, h', -⟩ := ledStep_ready h _
    refine ⟨mem', next, hs, ?_⟩
    cases next <;> exact h'

/-- How far the loop is from `usleep`. -/
def LedStep.rank : LedStep → ℕ
  | .usleep _ => 0
  | .getInfo => 1
  | .flag => 2
  | .get => 3
  | .blink _ => 4

theorem ledLoopCb_yields (stack : LedMode) : Yields (ledLoopCb stack) fun pos => pos.step.rank := by
  intro mem pos mem' pos' hpoint hs
  obtain ⟨step, ledMode⟩ := pos
  obtain ⟨context, -, hs⟩ := Option.bind_eq_some_iff.mp hs
  cases step with
  | usleep => exact absurd rfl hpoint
  | flag =>
    dsimp only at hs
    split_ifs at hs <;> cases hs
    exact Nat.lt_succ_self 1
  | getInfo =>
    dsimp only at hs
    split_ifs at hs
    · obtain ⟨fifo, -, hs⟩ := Option.bind_eq_some_iff.mp hs
      obtain ⟨val, -, hs⟩ := Option.bind_eq_some_iff.mp hs
      cases hs
      exact Nat.one_pos
    · cases hs
      exact Nat.one_pos
  | blink val =>
    cases hs
    dsimp only
    split_ifs
    · exact (by decide : 1 < 4)
    · exact Nat.lt_succ_self 3
  | get =>
    dsimp only at hs
    split_ifs at hs
    · obtain ⟨fifo, -, hs⟩ := Option.bind_eq_some_iff.mp hs
      obtain ⟨⟨fifo, bytes, ret⟩, -, hs⟩ := Option.bind_eq_some_iff.mp hs
      cases hs
      exact Nat.lt_succ_self 2
    · cases hs
      exact Nat.lt_succ_self 2

/-! ## Where the owner is -/

/-- Nothing is allocated. -/
structure Released (sys : ThreadSystem NetMem LedPos) : Prop where
  context : sys.shared.context = none
  fifo : sys.shared.fifo = none
  thread : sys.mem.context = none

/-- There is a context, and nothing else. -/
structure Bare (sys : ThreadSystem NetMem LedPos) : Prop where
  context : ∃ context, sys.shared.context = some context ∧ context.ledFifoHandle = false ∧
    context.ledThreadHandle = false
  fifo : sys.shared.fifo = none
  thread : sys.mem.context = none

/-- The context and the fifo are there, and the handle of the thread says whether the thread is. -/
structure Whole (handle thread : Bool) (sys : ThreadSystem NetMem LedPos) : Prop where
  ready : Ready sys.shared
  handle : ledThread sys.shared = some handle
  thread : sys.mem.context.isSome = thread

/-- The owner is in `HyThreadDestroy`. -/
def Destroys : OwnerPos → Prop
  | .setFlag | .cancel | .join | .reportEnd | .free => True
  | _ => False

/-- What there is, where the owner is. -/
def NetPos.Holds (sys : ThreadSystem NetMem LedPos) : NetPos → Prop
  | .idle => sys.owner = .idle ∧ (Released sys ∨ Whole true true sys)
  | .alloc => sys.owner = .idle ∧ Released sys
  | .createFifo => sys.owner = .idle ∧ Bare sys
  | .createThread => sys.owner = .idle ∧ Whole false false sys
  | .inThreadCreate =>
    sys.owner = .alloc ∧ Whole false false sys ∨
      (sys.owner = .spawn ∨ sys.owner = .report) ∧ Whole false true sys
  | .keepThread ok => sys.owner = .idle ∧ Whole false ok sys
  | .put _ => sys.owner = .idle ∧ Whole true true sys
  | .setFlag | .destroyThread =>
    sys.owner = .idle ∧ (Bare sys ∨ Whole false false sys ∨ Whole true true sys)
  | .inThreadDestroy => Destroys sys.owner ∧ Whole true true sys
  | .destroyFifo => sys.owner = .idle ∧ (Bare sys ∨ Whole false false sys)
  | .free => sys.owner = .idle ∧ Bare sys

/-- What the steps keep. -/
structure Lives (s : NetModule) : Prop where
  sound : Sound Ready (fun mem _ => Ready mem) s.sys
  holds : s.pos.Holds s.sys

/-! ## Steps of the thread -/

/-- What the thread leaves as it is. -/
structure Kept (sys sys' : ThreadSystem NetMem LedPos) : Prop where
  owner : sys'.owner = sys.owner
  thread : sys'.mem.context.isSome = sys.mem.context.isSome
  shared : sys'.shared = sys.shared ∨ Ready sys.shared ∧ Ready sys'.shared ∧
    ledThread sys'.shared = ledThread sys.shared

variable {sys sys' : ThreadSystem NetMem LedPos}

theorem Kept.released (hkept : Kept sys sys') (h : Released sys) : Released sys' := by
  have hshared : sys'.shared = sys.shared := hkept.shared.resolve_right fun hready => by
    obtain ⟨context, fifo, hcontext, -⟩ := hready.1
    exact nomatch h.context.symm.trans hcontext
  have hthread := hkept.thread
  rw [h.thread] at hthread
  exact ⟨hshared ▸ h.context, hshared ▸ h.fifo, by simpa using hthread⟩

theorem Kept.bare (hkept : Kept sys sys') (h : Bare sys) : Bare sys' := by
  have hshared : sys'.shared = sys.shared := hkept.shared.resolve_right fun hready => by
    obtain ⟨context, fifo, -, -, hfifo, -⟩ := hready.1
    exact nomatch h.fifo.symm.trans hfifo
  have hthread := hkept.thread
  rw [h.thread] at hthread
  exact ⟨hshared ▸ h.context, hshared ▸ h.fifo, by simpa using hthread⟩

theorem Kept.whole {handle thread : Bool} (hkept : Kept sys sys') (h : Whole handle thread sys) :
    Whole handle thread sys' := by
  refine ⟨?_, ?_, hkept.thread.trans h.thread⟩
  · rcases hkept.shared with hsame | ⟨-, hready, -⟩
    · rw [hsame]
      exact h.ready
    · exact hready
  · rcases hkept.shared with hsame | ⟨-, -, hled⟩
    · rw [hsame]
      exact h.handle
    · exact hled.trans h.handle

theorem Kept.holds (hkept : Kept sys sys') {pos : NetPos} (h : pos.Holds sys) :
    pos.Holds sys' := by
  have howner := hkept.owner
  cases pos with
  | idle => exact ⟨howner.trans h.1, h.2.imp hkept.released hkept.whole⟩
  | alloc => exact ⟨howner.trans h.1, hkept.released h.2⟩
  | createFifo | free => exact ⟨howner.trans h.1, hkept.bare h.2⟩
  | createThread | keepThread | put => exact ⟨howner.trans h.1, hkept.whole h.2⟩
  | inThreadCreate =>
    rw [NetPos.Holds, ← howner] at h
    exact h.imp (And.imp_right hkept.whole) (And.imp_right hkept.whole)
  | setFlag | destroyThread =>
    exact ⟨howner.trans h.1, h.2.imp hkept.bare (Or.imp hkept.whole hkept.whole)⟩
  | inThreadDestroy =>
    rw [NetPos.Holds, ← howner] at h
    exact ⟨h.1, hkept.whole h.2⟩
  | destroyFifo => exact ⟨howner.trans h.1, h.2.imp hkept.bare hkept.whole⟩

/-- **Every step of the thread** leaves what it does not own. -/
theorem kept_loopStep {shared : NetMem} {mem : ThreadMem LedPos} {out : ThreadOut}
    (h : Sound Ready (fun mem _ => Ready mem) sys)
    (hs : loopStep (ledLoopCb stack) sys.shared sys.mem = some (shared, mem, out)) :
    Kept sys { sys with shared, mem } := by
  have hthread := (loopStep_context hs).1
  refine ⟨rfl, by rw [hthread], ?_⟩
  have hneeds := h.needs
  rw [loopStep] at hs
  cases hworker : sys.mem.worker with
  | none | ended | sleep =>
    rw [hworker] at hs
    cases hs
    exact .inl rfl
  | start | call | stop | check =>
    rw [hworker] at hs
    obtain ⟨context, -, hs⟩ := Option.bind_eq_some_iff.mp hs
    cases hs
    exact .inl rfl
  | inside pos =>
    rw [hworker] at hs hneeds
    obtain ⟨mem', next, hstep, hready, hled⟩ := ledStep_ready hneeds pos
    obtain ⟨⟨shared₁, next₁⟩, hstep₁, hs⟩ := Option.bind_eq_some_iff.mp hs
    cases hstep.symm.trans hstep₁
    cases next with
    | inl pos | inr ret =>
      cases hs
      exact .inr ⟨hneeds, hready, hled⟩

/-! ## Steps of the owner -/

/-- The invariant of the thread module, for the callback of the module. -/
abbrev LedSound (sys : ThreadSystem NetMem LedPos) : Prop := Sound Ready (fun mem _ => Ready mem) sys

theorem noWorker (h : LedSound sys) (howner : sys.owner = .idle) (hthread : sys.mem.context = none) :
    sys.mem.worker = .none := by
  have hphase := h.phase
  rw [howner] at hphase
  exact hphase.mp hthread

/-- The owner changes the memory when it is in no function of the thread module. -/
theorem soundShared (h : LedSound sys) (howner : sys.owner = .idle)
    (hstable : sys.mem.context = none ∨ Ready mem) : LedSound { sys with shared := mem } := by
  refine h.setShared (hstable.imp (noWorker h howner) fun hready => ?_) (by simp [howner])
  exact ⟨fun _ => hready, fun _ _ => hready⟩

theorem Whole.exists_context {handle thread : Bool} (h : Whole handle thread sys) :
    ∃ context fifo, sys.shared.context = some context ∧ context.ledFifoHandle = true ∧
      context.ledThreadHandle = handle ∧ sys.shared.fifo = some fifo ∧ fifo.Wf := by
  obtain ⟨context, fifo, hcontext, hhandle, hfifo, hwf⟩ := h.ready
  refine ⟨context, fifo, hcontext, hhandle, ?_, hfifo, hwf⟩
  have hled := h.handle
  rw [ledThread, hcontext] at hled
  exact Option.some.inj hled

/-- The context rewritten with its fifo kept. -/
theorem Whole.setContext {handle handle' thread : Bool} (h : Whole handle thread sys)
    (hhandle : context.ledFifoHandle = true) (hled : context.ledThreadHandle = handle') :
    Whole handle' thread { sys with shared := { sys.shared with context := some context } } := by
  obtain ⟨old, fifo, -, -, -, hfifo, hwf⟩ := h.exists_context
  exact ⟨⟨context, fifo, rfl, hhandle, hfifo, hwf⟩, congrArg some hled, h.thread⟩

/-- **Every step of `HyNetWiredCreate`.** -/
theorem create_step {pos : NetPos} (hsound : LedSound sys) (hholds : pos.Holds sys)
    (hpos : pos = .alloc ∨ pos = .createFifo ∨ pos = .createThread ∨ pos = .inThreadCreate ∨
      ∃ ok, pos = .keepThread ok) {ok : Bool} (ok' : Bool)
    (hok : pos = .alloc ∨ sys.owner = .spawn → ok = true) :
    ∃ s' out, netOwnerStep ⟨sys, pos⟩ ok ok' = some (s', out) ∧ Lives s' := by
  rcases hpos with rfl | rfl | rfl | rfl | ⟨kept, rfl⟩
  · obtain ⟨howner, hreleased⟩ := hholds
    obtain rfl : ok = true := hok (.inl rfl)
    exact ⟨_, .silent, rfl, soundShared hsound howner (.inl hreleased.thread), howner,
      ⟨_, rfl, rfl, rfl⟩, hreleased.fifo, hreleased.thread⟩
  · obtain ⟨howner, hbare⟩ := hholds
    obtain ⟨context, hcontext, -, hhandle⟩ := hbare.context
    cases hfifo : hyFifoCreate { size := 8 * 6 } ok ok' with
    | none =>
      refine ⟨⟨sys, .setFlag⟩, .silent, ?_, hsound, howner, .inl hbare⟩
      simp only [netOwnerStep, hcontext, hfifo]
      rfl
    | some fifo =>
      have hmem : Ready ⟨some { context with ledFifoHandle := true }, some fifo⟩ :=
        ⟨_, fifo, rfl, rfl, rfl, (hyFifoCreate_wf hfifo).1⟩
      refine ⟨⟨{ sys with shared := ⟨some { context with ledFifoHandle := true }, some fifo⟩ },
        .createThread⟩, .silent, ?_, soundShared hsound howner (.inr hmem), howner, hmem,
        congrArg some hhandle, congrArg Option.isSome hbare.thread⟩
      simp only [netOwnerStep, hcontext, hfifo]
      rfl
  · obtain ⟨howner, hwhole⟩ := hholds
    have hthread : sys.mem.context = none := by simpa using hwhole.thread
    have hnone := noWorker hsound howner hthread
    exact ⟨⟨{ sys with owner := .alloc }, .inThreadCreate⟩, .silent, rfl,
      ⟨⟨hthread, hnone⟩, hsound.needs, fun _ => hwhole.ready⟩,
      .inl ⟨rfl, hwhole.ready, hwhole.handle, hwhole.thread⟩⟩
  · obtain ⟨mem, owner, out, hs, hsound'⟩ := hsound.owner_step fun howner => hok (.inr howner)
    refine ⟨_, .thread out, by simp only [netOwnerStep, hs]; rfl, hsound', ?_⟩
    rcases hholds with ⟨howner, hwhole⟩ | ⟨howner | howner, hwhole⟩
    · rw [howner, ownerStep] at hs
      split_ifs at hs
      · cases hs
        exact .inr ⟨.inl rfl, hwhole.ready, hwhole.handle, rfl⟩
      · -- no context, and the thread module has nothing to destroy
        cases hs
        exact ⟨rfl, hwhole.ready, hwhole.handle, hwhole.thread⟩
    · rw [howner] at hs
      obtain ⟨context, hcontext, hs⟩ := Option.bind_eq_some_iff.mp hs
      obtain rfl : ok = true := hok (.inr howner)
      cases hs
      exact .inr ⟨.inr rfl, hwhole.ready, hwhole.handle, hwhole.thread⟩
    · rw [howner] at hs
      obtain ⟨context, hcontext, hs⟩ := Option.bind_eq_some_iff.mp hs
      cases hs
      exact ⟨rfl, hwhole.ready, hwhole.handle, hwhole.thread⟩
  · obtain ⟨howner, hwhole⟩ := hholds
    obtain ⟨context, fifo, hcontext, hhandle, -, hfifo, hwf⟩ := hwhole.exists_context
    have hset : Whole kept kept { sys with shared := { sys.shared with
        context := some { context with ledThreadHandle := kept } } } :=
      hwhole.setContext hhandle rfl
    have hsound' := soundShared hsound howner (.inr hset.ready)
    cases kept with
    | true =>
      refine ⟨⟨_, .idle⟩, .created, ?_, hsound', howner, .inr hset⟩
      simp only [netOwnerStep, hcontext]
      rfl
    | false =>
      refine ⟨⟨_, .setFlag⟩, .silent, ?_, hsound', howner, .inr (.inl hset)⟩
      simp only [netOwnerStep, hcontext]
      rfl

/-- A step of `HyThreadDestroy` before the last. -/
theorem destroys_step {thread thread' : ThreadMem LedPos} {owner owner' : OwnerPos}
    {out : ThreadOut} {ok : Bool} (howner : Destroys owner) (hfree : owner ≠ .free)
    (hs : ownerStep ok thread owner = some (thread', owner', out)) :
    out ≠ .destroyed ∧ Destroys owner' ∧ thread'.context.isSome := by
  cases owner with
  | idle | alloc | spawn | report => exact howner.elim
  | free => exact absurd rfl hfree
  | setFlag | reportEnd =>
    obtain ⟨context, hcontext, hs⟩ := Option.bind_eq_some_iff.mp hs
    cases hs
    exact ⟨nofun, trivial, by simp [hcontext]⟩
  | cancel | join =>
    obtain ⟨context, hcontext, hs⟩ := Option.bind_eq_some_iff.mp hs
    split at hs <;> cases hs
    all_goals exact ⟨nofun, trivial, by simp [hcontext]⟩

/-- **Every step of `HyNetWiredDestroy`.** -/
theorem destroy_step {pos : NetPos} (hsound : LedSound sys) (hholds : pos.Holds sys)
    (hpos : pos = .setFlag ∨ pos = .destroyThread ∨ pos = .inThreadDestroy ∨
      pos = .destroyFifo ∨ pos = .free) {ok : Bool} (ok' : Bool)
    (hok : sys.owner = .spawn → ok = true) :
    ∃ s' out, netOwnerStep ⟨sys, pos⟩ ok ok' = some (s', out) ∧ Lives s' := by
  rcases hpos with rfl | rfl | rfl | rfl | rfl
  · obtain ⟨howner, hbare | hwhole | hwhole⟩ := hholds
    · obtain ⟨context, hcontext, hfifo, hhandle⟩ := hbare.context
      refine ⟨⟨{ sys with shared := { sys.shared with
        context := some { context with exitFlag := 1 } } }, .destroyThread⟩, .silent, ?_,
        soundShared hsound howner (.inl hbare.thread), howner,
        .inl ⟨⟨_, rfl, hfifo, hhandle⟩, hbare.fifo, hbare.thread⟩⟩
      simp only [netOwnerStep, hcontext]
      rfl
    · obtain ⟨context, fifo, hcontext, hhandle, hled, -⟩ := hwhole.exists_context
      have hset : Whole false false { sys with shared := { sys.shared with
          context := some { context with exitFlag := 1 } } } := hwhole.setContext hhandle hled
      refine ⟨⟨_, .destroyThread⟩, .silent, ?_, soundShared hsound howner (.inr hset.ready), howner,
        .inr (.inl hset)⟩
      simp only [netOwnerStep, hcontext]
      rfl
    · obtain ⟨context, fifo, hcontext, hhandle, hled, -⟩ := hwhole.exists_context
      have hset : Whole true true { sys with shared := { sys.shared with
          context := some { context with exitFlag := 1 } } } := hwhole.setContext hhandle hled
      refine ⟨⟨_, .destroyThread⟩, .silent, ?_, soundShared hsound howner (.inr hset.ready), howner,
        .inr (.inr hset)⟩
      simp only [netOwnerStep, hcontext]
      rfl
  · obtain ⟨howner, hbare | hwhole | hwhole⟩ := hholds
    · obtain ⟨context, hcontext, -, hhandle⟩ := hbare.context
      refine ⟨⟨sys, .destroyFifo⟩, .silent, ?_, hsound, howner, .inl hbare⟩
      simp [netOwnerStep, hcontext, hhandle]
    · obtain ⟨context, fifo, hcontext, -, hled, -⟩ := hwhole.exists_context
      refine ⟨⟨sys, .destroyFifo⟩, .silent, ?_, hsound, howner, .inr hwhole⟩
      simp [netOwnerStep, hcontext, hled]
    · obtain ⟨context, fifo, hcontext, -, hled, -⟩ := hwhole.exists_context
      have hthread : sys.mem.context ≠ none := by
        have hsome := hwhole.thread
        rintro hnone
        rw [hnone] at hsome
        cases hsome
      have hphase := hsound.phase
      rw [howner] at hphase
      refine ⟨⟨{ sys with owner := .setFlag }, .inThreadDestroy⟩, .silent, ?_,
        ⟨⟨hthread, fun hnone => hthread (hphase.mpr hnone)⟩, hsound.needs, nofun⟩, trivial,
        hwhole.ready, hwhole.handle, hwhole.thread⟩
      simp [netOwnerStep, hcontext, hled, NetModule.setOwner]
  · obtain ⟨mem, owner, out, hs, hsound'⟩ := hsound.owner_step hok
    obtain ⟨howner, hwhole⟩ := hholds
    obtain ⟨context, fifo, hcontext, hhandle, hled, -⟩ := hwhole.exists_context
    by_cases hfree : sys.owner = .free
    · -- the context of the thread is freed, and its handle is null
      rw [hfree] at hs
      cases hs
      have hset : Whole false true { sys with shared := { sys.shared with
          context := some { context with ledThreadHandle := false } } } :=
        hwhole.setContext hhandle rfl
      refine ⟨⟨_, .destroyFifo⟩, .thread .destroyed, ?_, soundShared hsound' rfl (.inl rfl), rfl,
        .inr ⟨hset.ready, rfl, rfl⟩⟩
      simp [netOwnerStep, ownerStep, hfree, hcontext, NetModule.setMem]
    · obtain ⟨hout, howner', hthread⟩ := destroys_step howner hfree hs
      refine ⟨⟨{ sys with mem, owner }, .inThreadDestroy⟩, .thread out, ?_, hsound', howner',
        hwhole.ready, hwhole.handle, hthread⟩
      simp [netOwnerStep, hs, hout]
  · obtain ⟨howner, hbare | hwhole⟩ := hholds
    · obtain ⟨context, hcontext, hhandle, -⟩ := hbare.context
      refine ⟨⟨sys, .free⟩, .silent, ?_, hsound, howner, hbare⟩
      simp [netOwnerStep, hcontext, hhandle]
    · obtain ⟨context, fifo, hcontext, hhandle, hled, hfifo, -⟩ := hwhole.exists_context
      have hthread : sys.mem.context = none := by simpa using hwhole.thread
      refine ⟨⟨{ sys with shared := ⟨some { context with ledFifoHandle := false }, none⟩ }, .free⟩,
        .silent, ?_, soundShared hsound howner (.inl hthread), howner, ⟨_, rfl, rfl, hled⟩, rfl,
        hthread⟩
      simp [netOwnerStep, hcontext, hhandle, hfifo, NetModule.setMem]
  · obtain ⟨howner, hbare⟩ := hholds
    exact ⟨⟨{ sys with shared := { sys.shared with context := none } }, .idle⟩, .released, rfl,
      soundShared hsound howner (.inl hbare.thread), howner, .inl ⟨rfl, hbare.fifo, hbare.thread⟩⟩

/-- **The step of `HyNetWiredSetLed`.** -/
theorem put_step {record : LedMode} (hsound : LedSound sys)
    (hholds : (NetPos.put record).Holds sys) (ok ok' : Bool) :
    ∃ s' out, netOwnerStep ⟨sys, .put record⟩ ok ok' = some (s', out) ∧ Lives s' := by
  obtain ⟨howner, hwhole⟩ := hholds
  obtain ⟨context, fifo, hcontext, hhandle, hled, hfifo, hwf⟩ := hwhole.exists_context
  have hlen : (8 : UInt64).toNat ≤ (encode record).length := by simp [encode]
  obtain ⟨fifo', hput, hwf', -⟩ := hyFifoPut_spec hwf (encode record) 8 hlen
  have hready : Ready { sys.shared with fifo := some fifo' } :=
    ⟨context, fifo', hcontext, hhandle, rfl, hwf'⟩
  refine ⟨⟨{ sys with shared := { sys.shared with fifo := some fifo' } }, .idle⟩,
    .put (.ofNat (min (8 : UInt64).toNat (fifo.size.toNat - fifo.used))), ?_,
    soundShared hsound howner (.inr hready), howner, .inr ⟨hready, hwhole.handle, hwhole.thread⟩⟩
  simp [netOwnerStep, hcontext, hhandle, hfifo, hput, NetModule.setMem]

/-- **Every step of the owner.** -/
theorem Lives.owner_step (h : Lives s) {ok : Bool} (ok' : Bool)
    (hok : s.pos = .alloc ∨ s.sys.owner = .spawn → ok = true) :
    ∃ s' out, netOwnerStep s ok ok' = some (s', out) ∧ Lives s' := by
  obtain ⟨sys, pos⟩ := s
  obtain ⟨hsound, hholds⟩ := h
  cases pos with
  | idle => exact ⟨⟨sys, .idle⟩, .blocked, rfl, hsound, hholds⟩
  | alloc => exact create_step hsound hholds (by simp) ok' hok
  | createFifo => exact create_step hsound hholds (by simp) ok' hok
  | createThread => exact create_step hsound hholds (by simp) ok' hok
  | inThreadCreate => exact create_step hsound hholds (by simp) ok' hok
  | keepThread kept => exact create_step hsound hholds (by simp) ok' hok
  | setFlag => exact destroy_step hsound hholds (by simp) ok' fun howner => hok (.inr howner)
  | destroyThread =>
    exact destroy_step hsound hholds (by simp) ok' fun howner => hok (.inr howner)
  | inThreadDestroy =>
    exact destroy_step hsound hholds (by simp) ok' fun howner => hok (.inr howner)
  | destroyFifo => exact destroy_step hsound hholds (by simp) ok' fun howner => hok (.inr howner)
  | free => exact destroy_step hsound hholds (by simp) ok' fun howner => hok (.inr howner)
  | put record => exact put_step hsound hholds ok ok'

/-- The calls in turn: a module is created when there is none, and used and destroyed when there is
one. The first allocation succeeds, and `pthread_create`. -/
def ModuleAllowed (s : NetModule) : ModuleOp → Prop
  | .create => s.pos = .idle ∧ s.sys.shared.context.isNone
  | .setLed _ _ | .destroy => s.pos = .idle ∧ s.sys.shared.context.isSome
  | .owner ok _ => s.pos = .alloc ∨ s.sys.owner = .spawn → ok = true
  | .worker | .cancelled => True

instance ModuleAllowed.decidable (s : NetModule) : ∀ op, Decidable (ModuleAllowed s op)
  | .create => inferInstanceAs (Decidable (_ ∧ _))
  | .setLed _ _ | .destroy => inferInstanceAs (Decidable (_ ∧ _))
  | .owner _ _ => inferInstanceAs (Decidable (_ ∨ _ → _))
  | .worker | .cancelled => inferInstanceAs (Decidable True)

/-- There is a module once its context is there. -/
theorem Lives.whole (h : Lives s) (hpos : s.pos = .idle) (hsome : s.sys.shared.context.isSome) :
    s.sys.owner = .idle ∧ Whole true true s.sys := by
  have hholds := h.holds
  rw [hpos] at hholds
  refine ⟨hholds.1, hholds.2.resolve_left fun hreleased => ?_⟩
  rw [hreleased.context] at hsome
  cases hsome

/-- **One step.** -/
theorem Lives.step (stack : LedMode) (h : Lives s) (hop : ModuleAllowed s op) :
    ∃ s' out, moduleStep stack s op = some (s', out) ∧ Lives s' := by
  cases op with
  | create =>
    obtain ⟨hpos, hnone⟩ := hop
    have hholds := h.holds
    rw [hpos] at hholds
    refine ⟨{ s with pos := .alloc }, .silent, if_pos hpos, h.sound, hholds.1,
      hholds.2.resolve_right fun hwhole => ?_⟩
    obtain ⟨context, fifo, hcontext, -⟩ := hwhole.exists_context
    rw [hcontext] at hnone
    cases hnone
  | setLed led mode =>
    obtain ⟨howner, hwhole⟩ := h.whole hop.1 hop.2
    exact ⟨{ s with pos := .put ⟨led, mode⟩ }, .silent, if_pos hop.1, h.sound, howner, hwhole⟩
  | destroy =>
    obtain ⟨howner, hwhole⟩ := h.whole hop.1 hop.2
    exact ⟨{ s with pos := .setFlag }, .silent, if_pos hop.1, h.sound, howner, .inr (.inr hwhole)⟩
  | owner ok ok' => exact h.owner_step ok' hop
  | worker =>
    by_cases hwaits : s.sys.mem.cancelled ∧
        s.sys.mem.worker.cancelPoint (ledLoopCb stack) = .waiting
    · have hpoint : s.sys.mem.worker.cancelPoint (ledLoopCb stack) ≠ .none := by
        rw [hwaits.2]
        nofun
      have hkept : Kept s.sys { s.sys with mem := { s.sys.mem with worker := .ended } } :=
        ⟨rfl, rfl, .inl rfl⟩
      refine ⟨⟨_, s.pos⟩, .thread .ended, ?_, h.sound.cancel hpoint, hkept.holds h.holds⟩
      simp only [moduleStep, workerStep, if_pos hwaits]
      rfl
    · obtain ⟨shared, mem, out, hs, hsound⟩ := h.sound.loop_step (ledLoopCb_works stack)
      refine ⟨⟨{ s.sys with shared, mem }, s.pos⟩, .thread out, ?_, hsound,
        (kept_loopStep h.sound hs).holds h.holds⟩
      simp only [moduleStep, workerStep, if_neg hwaits, hs]
      rfl
  | cancelled =>
    by_cases hends : s.sys.mem.cancelled ∧ s.sys.mem.worker.cancelPoint (ledLoopCb stack) ≠ .none
    · have hkept : Kept s.sys { s.sys with mem := { s.sys.mem with worker := .ended } } :=
        ⟨rfl, rfl, .inl rfl⟩
      refine ⟨⟨_, s.pos⟩, .thread .ended, ?_, h.sound.cancel hends.2, hkept.holds h.holds⟩
      simp only [moduleStep, cancelStep, if_pos hends]
    · exact ⟨s, .thread .blocked, by simp only [moduleStep, cancelStep, if_neg hends], h⟩

theorem lives_start : Lives .start :=
  ⟨.start _, rfl, .inl ⟨rfl, rfl, rfl⟩⟩

/-- **No step uses freed memory**: in every order of the steps of the owner, the LED thread and
cancellations, whatever later allocations fail and however often the module is created and
destroyed, every step completes; and whenever the owner is in no function and there is no module,
everything is freed and there is no thread. -/
theorem module_uses_live_memory (stack : LedMode) {ops : List ModuleOp}
    (hops : EachStep (moduleStep stack) ModuleAllowed .start ops) :
    ∃ s outs, run (moduleStep stack) .start ops = some (s, outs) ∧
      (s.pos = .idle → s.sys.shared.context = none →
        s.sys.shared.fifo = none ∧ s.sys.mem.context = none ∧ s.sys.mem.worker = .none) := by
  obtain ⟨s, outs, hrun, h⟩ :=
    run_completes_of_eachStep (fun _ _ h hop => h.step stack hop) lives_start hops
  refine ⟨s, outs, hrun, fun hpos hcontext => ?_⟩
  have hholds := h.holds
  rw [hpos] at hholds
  obtain ⟨howner, hreleased | hwhole⟩ := hholds
  · exact ⟨hreleased.fifo, hreleased.thread, noWorker h.sound howner hreleased.thread⟩
  · obtain ⟨context, fifo, hsome, -⟩ := hwhole.exists_context
    exact nomatch hcontext.symm.trans hsome

/-- The fifo cannot be created; then the module is, and its thread has begun to wait when it is
destroyed. -/
def lifeOps : List ModuleOp :=
  [.create, .owner true true, .owner true false, .owner true true, .owner true true,
    .owner true true, .owner true true] ++
  [.create, .owner true true, .owner true true, .owner true true, .owner true true,
    .owner true true, .worker, .owner true true, .worker, .owner true true, .setLed 1 3,
    .worker, .worker, .worker, .owner true true, .worker] ++
  [.destroy, .owner true true, .owner true true, .owner true true, .owner true true,
    .owner true true, .worker, .owner true true, .owner true true, .owner true true,
    .owner true true, .owner true true]

theorem module_uses_live_memory_twice :
    ∃ s outs, run (moduleStep ⟨0, 0⟩) .start lifeOps = some (s, outs) ∧
      (s.pos = .idle → s.sys.shared.context = none →
        s.sys.shared.fifo = none ∧ s.sys.mem.context = none ∧ s.sys.mem.worker = .none) :=
  module_uses_live_memory ⟨0, 0⟩ (by decide +kernel)

/-- Without the context there is nothing that `HyNetWiredDestroy` could look at. -/
example : (run (moduleStep ⟨0, 0⟩) .start
    [.create, .owner false false, .owner true true]).isNone := by decide +kernel

/-! ## The end of `HyNetWiredDestroy` -/

/-- The owner waits for the thread in `HyNetWiredDestroy`, or frees what is left. -/
def Closing (s : NetModule) : Prop :=
  s.pos = .inThreadDestroy ∧ Ending s.sys ∨ s.pos = .destroyFifo ∨ s.pos = .free

/-- The steps that are left of `HyNetWiredDestroy` from where the thread is cancelled. -/
def NetModule.left (s : NetModule) : ℕ :=
  match s.pos with
  | .free => 1
  | .destroyFifo => 2
  | _ => s.sys.left 2 (fun pos => pos.step.rank) + 2

/-- A step that is made, and not only waited for. -/
def ModuleOut.isMade : ModuleOut → Bool
  | .blocked | .thread .blocked => false
  | _ => true

/-- The steps of the thread are those of the thread module. -/
theorem moduleStep_worker (s : NetModule) :
    moduleStep stack s .worker =
      (threadStep (ledLoopCb stack) (fun mem (_ : Unit) => some mem) s.sys .worker).map
        fun r => (⟨r.1, s.pos⟩, .thread r.2) := by
  rw [moduleStep, threadStep, Option.map_map]
  rfl

theorem moduleStep_cancelled (s : NetModule) :
    moduleStep stack s .cancelled =
      (threadStep (ledLoopCb stack) (fun mem (_ : Unit) => some mem) s.sys .cancelled).map
        fun r => (⟨r.1, s.pos⟩, .thread r.2) := rfl

theorem made_singleton (out : ThreadOut) :
    made [out] = if (ModuleOut.thread out).isMade then 1 else 0 := by
  cases out <;> rfl

/-- Behind the thread module there is no thread. -/
theorem Lives.no_worker (h : Lives s) (hpos : s.pos = .destroyFifo ∨ s.pos = .free) :
    s.sys.mem.worker = .none := by
  have hholds := h.holds
  rcases hpos with hpos | hpos
  · rw [hpos] at hholds
    obtain ⟨howner, hbare | hwhole⟩ := hholds
    · exact noWorker h.sound howner hbare.thread
    · exact noWorker h.sound howner (by simpa using hwhole.thread)
  · rw [hpos] at hholds
    exact noWorker h.sound hholds.1 hholds.2.thread

/-- A step of the thread while the owner is closing. -/
theorem Closing.thread_step {op : ThreadOp Unit} {out : ThreadOut} (h : Closing s) (hlives : Lives s)
    (hop : op = .worker ∨ op = .cancelled)
    (hs : threadStep (ledLoopCb stack) (fun mem (_ : Unit) => some mem) s.sys op = some (sys, out)) :
    Closing ⟨sys, s.pos⟩ ∧
      NetModule.left ⟨sys, s.pos⟩ + (if (ModuleOut.thread out).isMade then 1 else 0) ≤ s.left := by
  rcases h with ⟨hpos, hending⟩ | hpos
  · obtain ⟨hending', hleft⟩ := hending.step (ledLoopCb_yields stack) hlives.sound.phase hs
      fun ok howner => by rcases hop with rfl | rfl <;> cases howner
    refine ⟨.inl ⟨hpos, hending'⟩, ?_⟩
    have hentry : (ledLoopCb stack).entry.step.rank = 2 := rfl
    rw [hentry, made_singleton] at hleft
    rw [NetModule.left, NetModule.left, hpos]
    dsimp only
    omega
  · have hnone := hlives.no_worker hpos
    have hblocked : sys = s.sys ∧ out = .blocked := by
      rcases hop with rfl | rfl
      · have hpoint : Worker.none.cancelPoint (ledLoopCb stack) ≠ .waiting := CancelPoint.noConfusion
        rw [threadStep, workerStep, loopStep, hnone, if_neg fun hwaits => hpoint hwaits.2] at hs
        cases hs
        exact ⟨rfl, rfl⟩
      · rw [threadStep, cancelStep, hnone, if_neg fun hends => hends.2 rfl] at hs
        cases hs
        exact ⟨rfl, rfl⟩
    obtain ⟨rfl, rfl⟩ := hblocked
    exact ⟨.inr hpos, le_rfl⟩

/-- **Each step** while the owner is closing comes closer to the end. -/
theorem Closing.step (h : Closing s) (hlives : Lives s)
    (hs : moduleStep stack s op = some (t, out)) (hout : out ≠ .released) :
    Closing t ∧ t.left + (if out.isMade then 1 else 0) ≤ s.left := by
  have hidle : s.pos ≠ .idle := by
    rcases h with ⟨hpos, -⟩ | hpos | hpos <;> rw [hpos] <;> nofun
  cases op with
  | create | setLed | destroy =>
    rw [moduleStep, if_neg hidle] at hs
    cases hs
  | worker =>
    rw [moduleStep_worker] at hs
    obtain ⟨⟨sys, out⟩, hthread, hs⟩ := Option.map_eq_some_iff.mp hs
    cases hs
    exact h.thread_step hlives (.inl rfl) hthread
  | cancelled =>
    rw [moduleStep_cancelled] at hs
    obtain ⟨⟨sys, out⟩, hthread, hs⟩ := Option.map_eq_some_iff.mp hs
    cases hs
    exact h.thread_step hlives (.inr rfl) hthread
  | owner ok ok' =>
    rw [moduleStep, netOwnerStep] at hs
    rcases h with ⟨hpos, hending⟩ | hpos | hpos
    · rw [hpos] at hs
      obtain ⟨⟨thread, owner, out'⟩, ho, hs⟩ := Option.bind_eq_some_iff.mp hs
      dsimp only at hs
      split_ifs at hs with hdestroyed
      · obtain ⟨context, -, hs⟩ := Option.bind_eq_some_iff.mp hs
        cases hs
        refine ⟨.inr (.inl rfl), ?_⟩
        rw [NetModule.left, NetModule.left, hpos, hdestroyed]
        dsimp only [NetModule.setMem]
        have hleft := hending.left_pos 2 fun pos => pos.step.rank
        simp only [ModuleOut.isMade, if_true]
        omega
      · cases hs
        obtain ⟨hending', hleft⟩ := hending.ownerStep 2 (fun pos => pos.step.rank) ho hdestroyed
        refine ⟨.inl ⟨rfl, hending'⟩, ?_⟩
        rw [made_singleton] at hleft
        rw [NetModule.left, NetModule.left, hpos]
        dsimp only
        omega
    · rw [hpos] at hs
      obtain ⟨context, -, hs⟩ := Option.bind_eq_some_iff.mp hs
      rw [NetModule.left, NetModule.left, hpos]
      split_ifs at hs
      · obtain ⟨fifo, -, hs⟩ := Option.bind_eq_some_iff.mp hs
        cases hs
        exact ⟨.inr (.inr rfl), le_rfl⟩
      · cases hs
        exact ⟨.inr (.inr rfl), le_rfl⟩
    · rw [hpos] at hs
      cases hs
      exact absurd rfl hout

theorem isMade_thread {out : ThreadOut} (h : out ≠ .blocked) : (ModuleOut.thread out).isMade := by
  cases out with
  | blocked => exact absurd rfl h
  | _ => rfl

/-- While the owner is closing, a step is possible. -/
theorem Closing.progress (stack : LedMode) (h : Closing s) (hlives : Lives s) :
    ∃ op s' out, (op = .worker ∨ op = .owner true true) ∧
      moduleStep stack s op = some (s', out) ∧ out.isMade := by
  -- the owner may always be asked for its step
  have howner : ModuleAllowed s (.owner true true) := fun _ => rfl
  obtain ⟨s', out, hs, -⟩ := hlives.step stack howner
  rcases h with ⟨hpos, hending⟩ | hpos | hpos
  · obtain ⟨op, sys, out', hop, hthread, hmade⟩ := hlives.sound.progress
      (fun mem (_ : Unit) => some mem) (ledLoopCb_works stack) hending
    rcases hop with rfl | rfl
    · refine ⟨.worker, ⟨sys, s.pos⟩, .thread out', .inl rfl, ?_, isMade_thread hmade⟩
      rw [moduleStep_worker, hthread]
      rfl
    · refine ⟨.owner true true, s', out, .inr rfl, hs, ?_⟩
      obtain ⟨⟨thread, owner, out₁⟩, ho, hthread⟩ := Option.map_eq_some_iff.mp hthread
      cases hthread
      rw [moduleStep, netOwnerStep, hpos] at hs
      simp only [ho, Option.bind_eq_bind, Option.bind_some] at hs
      split_ifs at hs
      · obtain ⟨context, -, hs⟩ := Option.bind_eq_some_iff.mp hs
        cases hs
        exact isMade_thread hmade
      · cases hs
        exact isMade_thread hmade
  · refine ⟨.owner true true, s', out, .inr rfl, hs, ?_⟩
    rw [moduleStep, netOwnerStep, hpos] at hs
    obtain ⟨context, -, hs⟩ := Option.bind_eq_some_iff.mp hs
    split_ifs at hs
    · obtain ⟨fifo, -, hs⟩ := Option.bind_eq_some_iff.mp hs
      cases hs
      rfl
    · cases hs
      rfl
  · refine ⟨.owner true true, s', out, .inr rfl, hs, ?_⟩
    rw [moduleStep, netOwnerStep, hpos] at hs
    cases hs
    rfl

/-- A run while the owner is closing. -/
theorem Closing.run (h : Closing s) (hlives : Lives s) {ops : List ModuleOp}
    {outs : List ModuleOut} (hops : EachStep (moduleStep stack) ModuleAllowed s ops)
    (hrun : run (moduleStep stack) s ops = some (t, outs)) (hout : .released ∉ outs) :
    Closing t ∧ Lives t ∧ t.left + (outs.filter ModuleOut.isMade).length ≤ s.left := by
  induction ops generalizing s outs with
  | nil =>
    cases hrun
    exact ⟨h, hlives, le_rfl⟩
  | cons op ops ih =>
    obtain ⟨s₁, out, outs, hs, hrest, rfl⟩ := run_cons_eq_some.mp hrun
    obtain ⟨hout₁, hout⟩ := not_or.mp (List.mem_cons.not.mp hout)
    obtain ⟨s₁', out', hs', hlives₁⟩ := hlives.step stack hops.1
    cases hs'.symm.trans hs
    obtain ⟨h₁, hleft⟩ := h.step hlives hs (Ne.symm hout₁)
    obtain ⟨hclosing, hlives', hrest'⟩ := ih h₁ hlives₁ (hops.2 _ _ hs) hrest hout
    refine ⟨hclosing, hlives', ?_⟩
    rw [List.filter_cons]
    split_ifs at hleft ⊢ with hmade
    · rw [List.length_cons]
      omega
    · omega

theorem Closing.left_pos (h : Closing s) : 1 ≤ s.left := by
  rw [NetModule.left]
  rcases h with ⟨hpos, -⟩ | hpos | hpos <;> rw [hpos]
  · exact Nat.succ_le_succ (Nat.zero_le _)
  · exact Nat.le_succ 1

theorem left_le (worker : Worker LedPos) : worker.left 2 (fun pos => pos.step.rank) ≤ 7 := by
  cases worker with
  | inside pos =>
    obtain ⟨step, ledMode⟩ := pos
    cases step <;> simp [Worker.left, LedStep.rank]
  | none | sleep | start | check | call | stop | ended => simp [Worker.left]

/-- **`HyNetWiredDestroy` returns**: once it has cancelled the LED thread, at most eleven steps are
made before it has freed everything, in every order, and until then a step is always possible. -/
theorem net_wired_destroy_returns {ops ops' : List ModuleOp} {outs outs' : List ModuleOut}
    (hops : EachStep (moduleStep stack) ModuleAllowed .start ops)
    (hrun : run (moduleStep stack) .start ops = some (s, outs)) (hpos : s.pos = .inThreadDestroy)
    (hjoin : s.sys.owner = .join) (hops' : EachStep (moduleStep stack) ModuleAllowed s ops')
    (hrun' : run (moduleStep stack) s ops' = some (t, outs')) (hout : .released ∉ outs') :
    (outs'.filter ModuleOut.isMade).length ≤ 11 ∧
      ∃ op s' out, (op = .worker ∨ op = .owner true true) ∧
        moduleStep stack t op = some (s', out) ∧ out.isMade := by
  have hlives : Lives s := run_invariant_of_eachStep (fun s op s' out h hop hs => by
    obtain ⟨t, out', ht, h'⟩ := h.step stack hop
    cases ht.symm.trans hs
    exact h') lives_start hops hrun
  obtain ⟨hclosing, hlives', hleft⟩ := Closing.run (.inl ⟨hpos, .inl hjoin⟩) hlives hops' hrun' hout
  refine ⟨?_, hclosing.progress stack hlives'⟩
  have hfirst : s.left = s.sys.mem.worker.left 2 (fun pos => pos.step.rank) + 3 + 2 := by
    rw [NetModule.left, ThreadSystem.left, hpos, hjoin]
  have hmax := left_le s.sys.mem.worker
  have hlast := hclosing.left_pos
  omega

/-- Until the thread is cancelled, in the middle of the loop. -/
def untilCancelled : List ModuleOp :=
  [.create, .owner true true, .owner true true, .owner true true, .owner true true,
    .owner true true, .owner true true, .owner true true, .worker, .worker, .worker, .worker,
    .worker, .destroy, .owner true true, .owner true true, .owner true true, .owner true true]

theorem net_wired_destroy_returns_in_loop :
    ∃ s outs t outs', run (moduleStep ⟨0, 0⟩) .start untilCancelled = some (s, outs) ∧
      run (moduleStep ⟨0, 0⟩) s [.worker, .owner true true, .worker] = some (t, outs') ∧
      (outs'.filter ModuleOut.isMade).length ≤ 11 ∧
      ∃ op s' out, (op = .worker ∨ op = .owner true true) ∧
        moduleStep ⟨0, 0⟩ t op = some (s', out) ∧ out.isMade := by
  have hwhole : (run (moduleStep ⟨0, 0⟩) .start
      (untilCancelled ++ [.worker, .owner true true, .worker])).map
        (fun r => decide (.released ∈ r.2)) = some false := by decide +kernel
  obtain ⟨⟨t, outs⟩, hboth, hreleased⟩ := Option.map_eq_some_iff.mp hwhole
  obtain ⟨s, outs, outs', hrun, hrun', rfl⟩ := run_append_eq_some.mp hboth
  have hstate : (run (moduleStep ⟨0, 0⟩) .start untilCancelled).map
      (fun r => (r.1.pos, r.1.sys.owner)) = some (.inThreadDestroy, .join) := by decide +kernel
  rw [hrun] at hstate
  obtain ⟨hpos, hjoin⟩ := Prod.mk.inj (Option.some.inj hstate)
  have hout : .released ∉ outs' := fun hmem =>
    of_decide_eq_false hreleased (List.mem_append_right _ hmem)
  have hops' : EachStep (moduleStep ⟨0, 0⟩) ModuleAllowed s [.worker, .owner true true, .worker] :=
    ⟨trivial, fun _ _ _ => ⟨fun _ => rfl, fun _ _ _ => ⟨trivial, fun _ _ _ => trivial⟩⟩⟩
  exact ⟨s, outs, t, outs', hrun, hrun',
    net_wired_destroy_returns (by decide +kernel) hrun hpos hjoin hops' hrun' hout⟩

end HyUtils.NetWired
