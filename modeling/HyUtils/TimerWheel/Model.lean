import HyUtils.Foundation.Run
import HyUtils.Foundation.SavedSuccessor
import Mathlib.Logic.Function.Basic

/-!
# The timer wheel

`src/hy_timer.c`. A timer is a heap block at an address, which is its handle, and its list node
puts it on the list of one slot. The mutex is a default one: locking it while it is held blocks
forever. `cur_slot` stays below `slot_num`, a 32-bit number, so no sum in the source overflows and
numbers are natural.

The allocator answers each request with an address or with `NULL`; an address in use is not an
answer it gives. A callback is the list of the calls it makes.

## Main definitions

* `Timer`, `TimerContext`: `_timer_t` and `_timer_context_t`, with the heap
* `hyTimerCreate`, `hyTimerAdd`, `hyTimerDel`: the functions of the module
* `visit`, `iter`, `tick`: the body, one round and the whole of the loop of `_timer_loop_cb` after
  its `select`
* `TimerOp`, `timerStep`: the module as a component, a tick being one step
-/

namespace HyUtils.TimerWheel

open Runs SavedSuccessor

/-- The address of a heap block. -/
abbrev Addr := ℕ

/-- What a call can run into: locking the mutex it holds, or a read of a freed timer. -/
inductive Fault
  | deadlock
  | useAfterFree
  deriving DecidableEq

/-- `HY_TIMER_MODE_REPEAT`; every other value of the flag is a single shot. -/
abbrev hyTimerModeRepeat : Int32 := 1

/-- `HyTimerConfig_t`; the callback may be `NULL`. -/
structure HyTimerConfig where
  expires : ℕ
  repeatFlag : Int32
  timerCb : Option ℕ
  args : ℕ
  deriving DecidableEq

/-- `_timer_t`; the list node is its place on a list. -/
structure Timer where
  timerConfig : HyTimerConfig
  rotation : ℕ
  deriving DecidableEq

/-- `_timer_context_t` with `mutex` when it is held, the slot lists, and the heap. -/
structure TimerContext where
  slotNum : ℕ
  curSlot : ℕ
  mutex : Bool
  listHead : ℕ → List Addr
  heap : Addr → Option Timer

/-! ## Lists, heap and mutex -/

namespace TimerContext

/-- `list_add_tail`. -/
def listAddTail (context : TimerContext) (a : Addr) (slot : ℕ) : TimerContext :=
  { context with
    listHead := Function.update context.listHead slot (context.listHead slot ++ [a]) }

/-- `list_del`: the node leaves the list it is on. -/
def listDel (context : TimerContext) (a : Addr) : TimerContext :=
  { context with listHead := fun i => (context.listHead i).erase a }

/-- Write a heap block. -/
def store (context : TimerContext) (a : Addr) (timer : Timer) : TimerContext :=
  { context with heap := Function.update context.heap a (some timer) }

/-- `HY_FREE_PP`. -/
def free (context : TimerContext) (a : Addr) : TimerContext :=
  { context with heap := Function.update context.heap a none }

/-- `HY_MALLOC_RET_VAL`, when the allocator answers `ptr`. -/
def malloc (context : TimerContext) (ptr : Option Addr) : Option Addr :=
  ptr.filter fun a => (context.heap a).isNone

/-- `pthread_mutex_lock`. -/
def lock (context : TimerContext) : Except Fault TimerContext :=
  if context.mutex then .error .deadlock else .ok { context with mutex := true }

/-- `pthread_mutex_unlock`. -/
def unlock (context : TimerContext) : TimerContext := { context with mutex := false }

end TimerContext

/-! ## The module -/

/-- `HyTimerCreate`; the flags say whether the allocations succeed. -/
def hyTimerCreate (slotNum : ℕ) (contextOk listOk : Bool) : Option TimerContext :=
  if contextOk && listOk then
    some { slotNum, curSlot := 0, mutex := false, listHead := fun _ => [], heap := fun _ => none }
  else none

/-- `HyTimerAdd`, with the handle it returns. -/
def hyTimerAdd (context : TimerContext) (timerConfig : HyTimerConfig) (ptr : Option Addr) :
    TimerContext × Option Addr :=
  match context.malloc ptr with
  | none => (context, none)
  | some a =>
    let rotation := timerConfig.expires / context.slotNum
    let slot := timerConfig.expires % context.slotNum
    ((context.store a { timerConfig, rotation }).listAddTail a slot, some a)

/-- `HyTimerDel`, with the handle variable after the call. The timer is unlinked before the mutex
is locked. -/
def hyTimerDel (context : TimerContext) (timerHandle : Option Addr) :
    Except Fault (TimerContext × Option Addr) :=
  match timerHandle with
  | none => .ok (context, none)
  | some a =>
    match (List.range context.slotNum).find? fun i => a ∈ context.listHead i with
    | none => .ok (context, some a)
    | some _ => do
      let context ← (context.listDel a).lock
      return ((context.free a).unlock, none)

/-- A call a callback makes of the module. -/
inductive CallbackOp
  | add (timerConfig : HyTimerConfig) (ptr : Option Addr)
  | del (timerHandle : Option Addr)

/-- The calls of a callback, in order. -/
def runCallback : TimerContext → List CallbackOp → Except Fault TimerContext
  | context, [] => .ok context
  | context, .add timerConfig ptr :: script =>
    runCallback (hyTimerAdd context timerConfig ptr).1 script
  | context, .del timerHandle :: script => do
    let (context, _) ← hyTimerDel context timerHandle
    runCallback context script

/-! ## The loop over a slot -/

/-- The part of the body that follows the callback: the timer at `pos` is put back on a list or
freed. -/
def fire (context : TimerContext) (pos : Addr) (timer : Timer) : TimerContext :=
  let context := context.listDel pos
  if timer.timerConfig.repeatFlag = hyTimerModeRepeat then
    let rotation := timer.timerConfig.expires / context.slotNum
    let slot := (timer.timerConfig.expires % context.slotNum + context.curSlot) % context.slotNum
    (context.store pos { timer with rotation }).listAddTail pos slot
  else context.free pos

/-- The callback of a timer that is due, called with the mutex held. -/
def invoke (script : List CallbackOp) (context : TimerContext) (timer : Timer) :
    Except Fault TimerContext := do
  let context ← context.lock
  let context ← if timer.timerConfig.timerCb.isSome then runCallback context script
    else .ok context
  return context.unlock

/-- The body of the loop at `pos`, whose callback makes the calls `script`, with the timers whose
callback it calls. -/
def visit (script : List CallbackOp) (context : TimerContext) (pos : Addr) :
    Except Fault (TimerContext × List Addr) :=
  match context.heap pos with
  | none => .error .useAfterFree
  | some timer =>
    if timer.rotation > 0 then
      .ok (context.store pos { timer with rotation := timer.rotation - 1 }, [])
    else do
      let context ← invoke script context timer
      -- the callback may have freed the timer it was called for
      match context.heap pos with
      | none => .error .useAfterFree
      | some timer =>
        return (fire context pos timer, if timer.timerConfig.timerCb.isSome then [pos] else [])

/-- The loop variables `pos` and `n`; `none` is the head of the list. -/
structure Walk where
  context : TimerContext
  pos : Option Addr
  n : Option Addr

/-- `list_next_entry`. -/
def listNextEntry (context : TimerContext) : Option Addr → Except Fault (Option Addr)
  | none => .ok (context.listHead context.curSlot).head?
  | some a =>
    if (context.heap a).isNone then .error .useAfterFree
    else .ok (succIn (context.listHead context.curSlot) a)

/-- The first clause of `list_for_each_entry_safe`. -/
def startWalk (context : TimerContext) : Except Fault Walk := do
  let pos := (context.listHead context.curSlot).head?
  let n ← listNextEntry context pos
  return { context, pos, n }

/-- One round of `list_for_each_entry_safe`, with the timers whose callback is called. The loop
has ended when `pos` is the head. -/
def iter (script : List CallbackOp) (walk : Walk) : Except Fault (Walk × List Addr) :=
  match walk.pos with
  | none => .ok (walk, [])
  | some pos => do
    let (context, calls) ← visit script walk.context pos
    let n ← listNextEntry context walk.n
    return ({ context, pos := walk.n, n }, calls)

/-- One round, as a step. -/
def walkStep (walk : Walk) (script : List CallbackOp) : Option (Walk × List Addr) :=
  (iter script walk).toOption

/-- `cur_slot` moves on. -/
def advance (context : TimerContext) : TimerContext :=
  { context with curSlot := (context.curSlot + 1) % context.slotNum }

/-- A tick in at most `scripts.length` rounds, with the timers whose callback it calls. -/
def tick (context : TimerContext) (scripts : List (List CallbackOp)) :
    Option (TimerContext × List Addr) := do
  let walk ← (startWalk context).toOption
  let (walk, calls) ← run walkStep walk scripts
  if walk.pos.isNone then some (advance walk.context, calls.flatten) else none

/-! ## The module as a component -/

/-- A call of the module or a tick; a tick has a bound on its rounds, and its callbacks make no
calls. -/
inductive TimerOp
  | add (timerConfig : HyTimerConfig) (ptr : Option Addr)
  | del (timerHandle : Option Addr)
  | tick (fuel : ℕ)

/-- What a step shows: the handle returned, the handle variable afterwards, or the timers whose
callback is called. -/
inductive TimerOut
  | added (timerHandle : Option Addr)
  | deleted (timerHandle : Option Addr)
  | ticked (calls : List Addr)

/-- One step. -/
def timerStep (context : TimerContext) : TimerOp → Option (TimerContext × TimerOut)
  | .add timerConfig ptr =>
    let (context, timerHandle) := hyTimerAdd context timerConfig ptr
    some (context, .added timerHandle)
  | .del timerHandle =>
    (hyTimerDel context timerHandle).toOption.map fun r => (r.1, .deleted r.2)
  | .tick fuel =>
    (tick context (List.replicate fuel [])).map fun r => (r.1, .ticked r.2)

end HyUtils.TimerWheel
