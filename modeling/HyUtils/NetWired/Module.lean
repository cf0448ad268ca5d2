import HyUtils.NetWired.Model
import HyUtils.Thread.Model

/-!
# The LED module and its thread

`HyNetWiredCreate`, `HyNetWiredSetLed` and `HyNetWiredDestroy` of `src/hy_net_wired.c` on the memory
they allocate, with the thread of `src/hy_thread.c` that runs `_led_loop_cb` at the same time. Each
statement that uses what both sides use is a step, and a fifo operation is one step. A null pointer,
or one to memory that is freed, makes a step undefined.

What `_led_set` does is not modelled, except that it passes cancellation points; a thread that is
cancelled there has done nothing of its step, and what it has done is not looked at again.

## Main definitions

* `NetMem`: the context, to which a static pointer points, and the fifo
* `ledLoopCb`: `_led_loop_cb` as the callback of a thread
* `NetPos`: the position of the owner
* `NetModule`: the module, its thread and its owner
* `moduleStep`: the steps of the three in any order, as a component
-/

namespace HyUtils.NetWired

open Fifo Thread

/-- `_net_wired_context_t` of a created module. A handle that is not null points to what is in
`NetMem`, or to the context of the thread. -/
structure NetContext where
  exitFlag : Int32
  ledThreadHandle : Bool
  ledFifoHandle : Bool
  ledBlinkMode : Fin ledMax → LedBlinkMode

/-- The memory of the module while it is allocated. -/
structure NetMem where
  context : Option NetContext
  fifo : Option FifoContext

/-! ## The thread -/

/-- The position in `_led_loop_cb`: before the condition of the outer loop, before the used length
is asked for, in `usleep`, before the LEDs blink, and before a record is taken. -/
inductive LedStep
  | flag
  | getInfo
  | usleep (val : UInt64)
  | blink (val : UInt64)
  | get
  deriving DecidableEq

/-- The position, with the local `led_mode`. -/
structure LedPos where
  step : LedStep
  ledMode : LedMode

/-- What a step of the loop looks at besides the fifo, as the module without its memory has it. -/
def wiredContext (context : NetContext) (ledMode : LedMode) : NetWiredContext where
  ledFifo := ⟨[], 0, 0, 0, 0⟩
  ledBlinkMode := context.ledBlinkMode
  pos := .getInfo
  ledMode := ledMode

/-- The blink loop. -/
def blinkLeds (context : NetContext) (ledMode : LedMode) : NetContext × LedMode :=
  let wired := (List.finRange ledMax).foldl (fun wired i => (blinkLed wired i).1)
    (wiredContext context ledMode)
  ({ context with ledBlinkMode := wired.ledBlinkMode }, wired.ledMode)

/-- The record that was taken is kept. -/
def keepRecord (context : NetContext) (ledMode : LedMode) : NetContext :=
  { context with ledBlinkMode := (recordLed (wiredContext context ledMode) ledMode).1.ledBlinkMode }

/-- The next step of `_led_loop_cb`. `HyFifoGetInfo` and `HyFifoGet` refuse a null handle. -/
def ledStep (mem : NetMem) (pos : LedPos) : Option (NetMem × (LedPos ⊕ Int32)) := do
  let context ← mem.context
  match pos.step with
  | .flag =>
    if context.exitFlag = 0 then return (mem, .inl { pos with step := .getInfo })
    else return (mem, .inr (-1))
  | .getInfo =>
    if context.ledFifoHandle then
      let fifo ← mem.fifo
      let val ← hyFifoGetInfo fifo .usedLen
      return (mem, .inl { pos with step := .usleep val })
    else return (mem, .inl { pos with step := .usleep 0 })
  | .usleep val => return (mem, .inl { pos with step := .blink val })
  | .blink val =>
    let (context, ledMode) := blinkLeds context pos.ledMode
    return ({ mem with context := some context }, .inl ⟨if val = 0 then .getInfo else .get, ledMode⟩)
  | .get =>
    if context.ledFifoHandle then
      let fifo ← mem.fifo
      let (fifo, bytes, _) ← hyFifoGet fifo (encode pos.ledMode) 8
      let ledMode := decode bytes
      return (⟨some (keepRecord context ledMode), some fifo⟩, .inl ⟨.flag, ledMode⟩)
    else
      return ({ mem with context := some (keepRecord context pos.ledMode) },
        .inl ⟨.flag, pos.ledMode⟩)

/-- `_led_loop_cb`; `stack` is what its uninitialised record holds. -/
def ledLoopCb (stack : LedMode) : ThreadLoopCb NetMem LedPos where
  entry := ⟨.flag, stack⟩
  step := ledStep
  cancelPoint pos :=
    match pos.step with
    | .usleep _ => .waiting
    | .blink _ | .get => .within
    | .flag | .getInfo => .none

/-! ## The owner -/

/-- The position of the owner: in none of the functions; in `HyNetWiredCreate` before it allocates
the context, before it creates the fifo, before it calls `HyThreadCreate`, in that, and before it
keeps the handle; in `HyNetWiredSetLed`; in `HyNetWiredDestroy` before it sets the flag, before it
calls `HyThreadDestroy`, in that, before it destroys the fifo and before it frees the context. -/
inductive NetPos
  | idle
  | alloc
  | createFifo
  | createThread
  | inThreadCreate
  | keepThread (ok : Bool)
  | put (record : LedMode)
  | setFlag
  | destroyThread
  | inThreadDestroy
  | destroyFifo
  | free
  deriving DecidableEq

/-- The module with its thread, and the owner. -/
structure NetModule where
  sys : ThreadSystem NetMem LedPos
  pos : NetPos

/-- No module. -/
def NetModule.start : NetModule := ⟨.start ⟨none, none⟩, .idle⟩

/-- What a step shows: that it has to wait, that the module is created, what `HyFifoPut` has
accepted, that everything is freed, or what the thread module shows. -/
inductive ModuleOut
  | silent
  | blocked
  | created
  | put (ret : UInt64)
  | released
  | thread (out : ThreadOut)
  deriving DecidableEq

/-- The module with other memory. -/
def NetModule.setMem (s : NetModule) (mem : NetMem) (pos : NetPos) : NetModule :=
  { sys := { s.sys with shared := mem }, pos }

/-- The module with its owner in a function of the thread module. -/
def NetModule.setOwner (s : NetModule) (owner : OwnerPos) (pos : NetPos) : NetModule :=
  { sys := { s.sys with owner }, pos }

/-- The next step of the owner; `ok` and `ok'` are what its first and its second allocation in this
step answer, or `pthread_create`. A creation that fails goes on in `HyNetWiredDestroy`. -/
def netOwnerStep (s : NetModule) (ok ok' : Bool) : Option (NetModule × ModuleOut) :=
  let mem := s.sys.shared
  match s.pos with
  | .idle => some (s, .blocked)
  | .alloc =>
    if ok then
      let context : NetContext := ⟨0, false, false, fun _ => ⟨⟨0, 0⟩, 0, 0⟩⟩
      some (s.setMem { mem with context := some context } .createFifo, .silent)
    else some ({ s with pos := .setFlag }, .silent)
  | .createFifo => do
    let context ← mem.context
    match hyFifoCreate { size := 8 * 6 } ok ok' with
    | some fifo =>
      return (s.setMem ⟨some { context with ledFifoHandle := true }, some fifo⟩ .createThread,
        .silent)
    | none => return ({ s with pos := .setFlag }, .silent)
  | .createThread => some (s.setOwner .alloc .inThreadCreate, .silent)
  | .inThreadCreate => do
    let (thread, owner, out) ← ownerStep ok s.sys.mem s.sys.owner
    let pos := match out with
      | .created ok => .keepThread ok
      | _ => .inThreadCreate
    return ({ sys := { s.sys with mem := thread, owner }, pos }, .thread out)
  | .keepThread ok => do
    let context ← mem.context
    let s := s.setMem { mem with context := some { context with ledThreadHandle := ok } } .idle
    if ok then return (s, .created) else return ({ s with pos := .setFlag }, .silent)
  | .put record => do
    let context ← mem.context
    -- the handle is not looked at before it is used
    if context.ledFifoHandle then
      let fifo ← mem.fifo
      let (fifo, ret) ← hyFifoPut fifo (encode record) 8
      return (s.setMem { mem with fifo := some fifo } .idle, .put ret)
    else none
  | .setFlag => do
    let context ← mem.context
    return (s.setMem { mem with context := some { context with exitFlag := 1 } } .destroyThread,
      .silent)
  | .destroyThread => do
    let context ← mem.context
    if context.ledThreadHandle then return (s.setOwner .setFlag .inThreadDestroy, .silent)
    else return ({ s with pos := .destroyFifo }, .silent)
  | .inThreadDestroy => do
    let (thread, owner, out) ← ownerStep ok s.sys.mem s.sys.owner
    let s := { s with sys := { s.sys with mem := thread, owner } }
    if out = .destroyed then
      let context ← mem.context
      return (s.setMem { mem with context := some { context with ledThreadHandle := false } }
        .destroyFifo, .thread out)
    else return (s, .thread out)
  | .destroyFifo => do
    let context ← mem.context
    if context.ledFifoHandle then
      let _ ← mem.fifo
      return (s.setMem ⟨some { context with ledFifoHandle := false }, none⟩ .free, .silent)
    else return ({ s with pos := .free }, .silent)
  | .free => some (s.setMem { mem with context := none } .idle, .released)

/-! ## The module as a component -/

/-- What happens next: the owner calls a function, or makes its next step; the thread makes its next
step, or is ended by a cancellation. -/
inductive ModuleOp
  | create
  | setLed (led mode : Int32)
  | destroy
  | owner (ok ok' : Bool)
  | worker
  | cancelled
  deriving DecidableEq

/-- One step. The owner calls a function when it is in none. -/
def moduleStep (stack : LedMode) (s : NetModule) : ModuleOp → Option (NetModule × ModuleOut)
  | .create => if s.pos = .idle then some ({ s with pos := .alloc }, .silent) else none
  | .setLed led mode =>
    if s.pos = .idle then some ({ s with pos := .put ⟨led, mode⟩ }, .silent) else none
  | .destroy => if s.pos = .idle then some ({ s with pos := .setFlag }, .silent) else none
  | .owner ok ok' => netOwnerStep s ok ok'
  | .worker =>
    (workerStep (ledLoopCb stack) s.sys.shared s.sys.mem).map fun r =>
      ({ s with sys := { s.sys with shared := r.1, mem := r.2.1 } }, .thread r.2.2)
  | .cancelled =>
    let r := cancelStep (ledLoopCb stack) s.sys.mem
    some ({ s with sys := { s.sys with mem := r.1 } }, .thread r.2)

end HyUtils.NetWired
