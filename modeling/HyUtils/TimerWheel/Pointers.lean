import HyUtils.HyList.Model
import HyUtils.TimerWheel.Model

/-!
# The timer wheel with its pointers

`src/hy_timer.c` over the lists of `include/hy_list.h`: the head of each slot list and the list node
in each timer are nodes with two cells, and the loops follow the cells. A missing result is a
deadlock, an access to memory that is not allocated, or a loop that is out of rounds.

## Main definitions

* `Node`: what a cell of a list may point to
* `PointerContext`: `_timer_context_t` with the cells and the heap
* `PointerContext.hyTimerCreate`, `PointerContext.hyTimerAdd`, `PointerContext.hyTimerDel`,
  `PointerContext.hyTimerDestroy`: the functions of the module
* `PointerContext.visit`, `PointerContext.iter`, `PointerContext.tick`: the loop of
  `_timer_loop_cb` after its `select`
* `PointerContext.Memory`: what the module has of memory
* `WheelOp`, `wheelStep`, `PointerContext.step`: the module as a component, with callbacks that call
  it
-/

namespace HyUtils.TimerWheel

open Rings Runs

/-- The heads of the slot lists, the list nodes of the timers, and the addresses without a node. -/
inductive Node
  | null
  | poison1
  | poison2
  | slot (i : ℕ)
  | timer (a : Addr)
  deriving DecidableEq

/-- `_timer_context_t` with `mutex` when it is held, the cells of the nodes, and the timers without
theirs. -/
structure PointerContext where
  slotNum : ℕ
  curSlot : ℕ
  mutex : Bool
  cells : Cells Node
  heap : Addr → Option Timer

namespace PointerContext

/-! ## Lists, heap and mutex -/

/-- `list_add_tail`. -/
def listAddTail (context : PointerContext) (new head : Node) : Option PointerContext := do
  let cells ← HyList.listAddTail context.cells new head
  return { context with cells }

/-- `list_del`. -/
def listDel (context : PointerContext) (entry : Node) : Option PointerContext := do
  let cells ← HyList.listDel ⟨.poison1, .poison2⟩ context.cells entry
  return { context with cells }

/-- The timer around a node: `list_entry`, and the read of its fields. -/
def timerAt (context : PointerContext) : Node → Option (Addr × Timer)
  | .timer a => (context.heap a).map (a, ·)
  | _ => none

/-- Write the fields of a timer. -/
def store (context : PointerContext) (a : Addr) (timer : Timer) : PointerContext :=
  { context with heap := Function.update context.heap a (some timer) }

/-- `HY_MALLOC_RET_VAL` and the copy of the configuration, when the allocator answers with `a`; new
memory is cleared. -/
def malloc (context : PointerContext) (a : Addr) (timer : Timer) : PointerContext :=
  { context with
    cells := HyList.alloc context.cells (.timer a) .null .null
    heap := Function.update context.heap a (some timer) }

/-- `HY_FREE_PP`. -/
def free (context : PointerContext) (a : Addr) : PointerContext :=
  { context with
    cells := HyList.free context.cells (.timer a)
    heap := Function.update context.heap a none }

/-- `pthread_mutex_lock`. -/
def lock (context : PointerContext) : Option PointerContext :=
  if context.mutex then none else some { context with mutex := true }

/-- `pthread_mutex_unlock`. -/
def unlock (context : PointerContext) : PointerContext := { context with mutex := false }

/-! ## The module -/

/-- `HyTimerCreate`; the flags say whether the allocations succeed. -/
def hyTimerCreate (slotNum : ℕ) (contextOk listOk : Bool) : Option PointerContext :=
  if contextOk && listOk then do
    let listHead := (List.range slotNum).foldl (fun m i => HyList.alloc m (.slot i) .null .null)
      ⟨fun _ => none, fun _ => none⟩
    let cells ← (List.range slotNum).foldlM (fun m i => HyList.initListHead m (.slot i)) listHead
    return { slotNum, curSlot := 0, mutex := false, cells, heap := fun _ => none }
  else none

/-- `HyTimerAdd`, with the handle it returns. -/
def hyTimerAdd (context : PointerContext) (timerConfig : HyTimerConfig) (ptr : Option Addr) :
    Option (PointerContext × Option Addr) :=
  match ptr.filter fun a => (context.heap a).isNone with
  | none => some (context, none)
  | some a => do
    let rotation := timerConfig.expires / context.slotNum
    let slot := timerConfig.expires % context.slotNum
    let context ←
      (context.malloc a { timerConfig, rotation }).listAddTail (.timer a) (.slot slot)
    return (context, some a)

/-- The loop of `HyTimerDel` over the list at `head`, from `pos` on with `n` saved, and whether it
finds the timer. -/
def delFrom (a : Addr) (head : Node) :
    ℕ → PointerContext → Node → Node → Option (PointerContext × Bool)
  | 0, context, pos, _ => if pos = head then some (context, false) else none
  | fuel + 1, context, pos, n =>
    if pos = head then some (context, false)
    else if pos = .timer a then do
      let context ← context.listDel pos
      let context ← context.lock
      return ((context.free a).unlock, true)
    else do delFrom a head fuel context n (← context.cells.next n)

/-- The loop of `HyTimerDel` over the slots. -/
def delSlots (fuel : ℕ) (a : Addr) : List ℕ → PointerContext → Option (PointerContext × Bool)
  | [], context => some (context, false)
  | i :: slots, context => do
    let pos ← context.cells.next (.slot i)
    let (context, found) ← delFrom a (.slot i) fuel context pos (← context.cells.next pos)
    if found then return (context, true) else delSlots fuel a slots context

/-- `HyTimerDel`, with the handle variable after the call. -/
def hyTimerDel (fuel : ℕ) (context : PointerContext) (timerHandle : Option Addr) :
    Option (PointerContext × Option Addr) :=
  match timerHandle with
  | none => some (context, none)
  | some a => do
    let (context, found) ← delSlots fuel a (List.range context.slotNum) context
    return (context, if found then none else some a)

/-- The calls of a callback, in order. -/
def runCallback (fuel : ℕ) : PointerContext → List CallbackOp → Option PointerContext
  | context, [] => some context
  | context, .add timerConfig ptr :: script => do
    let (context, _) ← context.hyTimerAdd timerConfig ptr
    runCallback fuel context script
  | context, .del timerHandle :: script => do
    let (context, _) ← hyTimerDel fuel context timerHandle
    runCallback fuel context script

/-! ## The loop over a slot -/

/-- The callback of a timer that is due, called with the mutex held. -/
def invoke (fuel : ℕ) (script : List CallbackOp) (context : PointerContext) (timer : Timer) :
    Option PointerContext := do
  let context ← context.lock
  let context ← if timer.timerConfig.timerCb.isSome then runCallback fuel context script
    else some context
  return context.unlock

/-- The part of the body that follows the callback. -/
def fire (context : PointerContext) (pos : Node) : Option PointerContext := do
  let context ← context.listDel pos
  let (a, timer) ← context.timerAt pos
  if timer.timerConfig.repeatFlag = hyTimerModeRepeat then
    let rotation := timer.timerConfig.expires / context.slotNum
    let slot := (timer.timerConfig.expires % context.slotNum + context.curSlot) % context.slotNum
    (context.store a { timer with rotation }).listAddTail pos (.slot slot)
  else return context.free a

/-- The body of the loop at `pos`, with the timers whose callback it calls. -/
def visit (fuel : ℕ) (script : List CallbackOp) (context : PointerContext) (pos : Node) :
    Option (PointerContext × List Addr) := do
  let (a, timer) ← context.timerAt pos
  if timer.rotation > 0 then
    return (context.store a { timer with rotation := timer.rotation - 1 }, [])
  else
    let context ← invoke fuel script context timer
    let context ← fire context pos
    return (context, if timer.timerConfig.timerCb.isSome then [a] else [])

/-- The loop variables `pos` and `n`. -/
structure PointerWalk where
  context : PointerContext
  pos : Node
  n : Node

/-- The head of the list of the current slot. -/
def listHead (context : PointerContext) : Node := .slot context.curSlot

/-- The first clause of `list_for_each_entry_safe`. -/
def startWalk (context : PointerContext) : Option PointerWalk := do
  let pos ← context.cells.next context.listHead
  let n ← context.cells.next pos
  return { context, pos, n }

/-- One round of `list_for_each_entry_safe`, with the timers whose callback is called. -/
def iter (fuel : ℕ) (walk : PointerWalk) (script : List CallbackOp) :
    Option (PointerWalk × List Addr) :=
  if walk.pos = walk.context.listHead then some (walk, [])
  else do
    let (context, calls) ← visit fuel script walk.context walk.pos
    let n ← context.cells.next walk.n
    return ({ context, pos := walk.n, n }, calls)

/-- `cur_slot` moves on. -/
def advance (context : PointerContext) : PointerContext :=
  { context with curSlot := (context.curSlot + 1) % context.slotNum }

/-- A tick in at most `scripts.length` rounds, with the timers whose callback it calls. -/
def tick (fuel : ℕ) (context : PointerContext) (scripts : List (List CallbackOp)) :
    Option (PointerContext × List Addr) := do
  let walk ← startWalk context
  let (walk, calls) ← run (iter fuel) walk scripts
  if walk.pos = walk.context.listHead then some (advance walk.context, calls.flatten) else none

/-! ## The end of the module -/

/-- The body of the loop of `HyTimerDestroy`. -/
def destroyEntry (context : PointerContext) (pos : Node) : Option PointerContext := do
  let context ← context.listDel pos
  let (a, _) ← context.timerAt pos
  return context.free a

/-- The loop of `HyTimerDestroy` over the list of slot `i`, with the nodes whose timer is freed. -/
def destroySlot (fuel : ℕ) (r : PointerContext × List Node) (i : ℕ) :
    Option (PointerContext × List Node) := do
  let (context, freed) ← HyList.listForEachSafe cells destroyEntry fuel r.1 (.slot i)
  return (context, r.2 ++ freed)

/-- `pthread_mutex_destroy`, of a mutex that is not held. -/
def mutexDestroy (context : PointerContext) : Option PointerContext :=
  if context.mutex then none else some context

/-- One head of the array that `HY_FREE_PP(&context->list_head)` frees. -/
def freeHead (context : PointerContext) (i : ℕ) : Option PointerContext := do
  let _ ← context.cells.next (.slot i)
  return { context with cells := HyList.free context.cells (.slot i) }

/-- `HY_FREE_PP(&context->list_head)`. -/
def freeListHead (context : PointerContext) : Option PointerContext :=
  (List.range context.slotNum).foldlM freeHead context

/-- What the module has of memory: its context, or not, and the nodes and timers that are there. -/
structure Memory where
  context : Bool
  cells : Cells Node
  heap : Addr → Option Timer

/-- The memory of a module with its context. -/
def memory (context : PointerContext) : Memory := ⟨true, context.cells, context.heap⟩

/-- `HY_FREE_PP(&context)`; nodes and timers that have not been freed stay. -/
def Memory.freeContext (memory : Memory) : Memory := { memory with context := false }

/-- `HyTimerDestroy` once the thread is joined, with the nodes whose timer it frees. -/
def hyTimerDestroy (fuel : ℕ) (context : PointerContext) : Option (Memory × List Node) := do
  let (context, freed) ← (List.range context.slotNum).foldlM (destroySlot fuel) (context, [])
  let context ← context.mutexDestroy
  let context ← context.freeListHead
  return (context.memory.freeContext, freed)

end PointerContext

/-! ## The module as a component -/

/-- A call of the module, or a tick with the calls each of its callbacks makes. -/
inductive WheelOp
  | add (timerConfig : HyTimerConfig) (ptr : Option Addr)
  | del (timerHandle : Option Addr)
  | tick (scripts : List (List CallbackOp))

/-- One step. -/
def wheelStep (context : TimerContext) : WheelOp → Option (TimerContext × TimerOut)
  | .add timerConfig ptr =>
    let (context, timerHandle) := hyTimerAdd context timerConfig ptr
    some (context, .added timerHandle)
  | .del timerHandle =>
    (hyTimerDel context timerHandle).toOption.map fun r => (r.1, .deleted r.2)
  | .tick scripts => (tick context scripts).map fun r => (r.1, .ticked r.2)

/-- One step with its pointers, where the loops of a deletion have `fuel` rounds. -/
def PointerContext.step (fuel : ℕ) (context : PointerContext) :
    WheelOp → Option (PointerContext × TimerOut)
  | .add timerConfig ptr =>
    (context.hyTimerAdd timerConfig ptr).map fun r => (r.1, .added r.2)
  | .del timerHandle =>
    (hyTimerDel fuel context timerHandle).map fun r => (r.1, .deleted r.2)
  | .tick scripts => (tick fuel context scripts).map fun r => (r.1, .ticked r.2)

end HyUtils.TimerWheel
