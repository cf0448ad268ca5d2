import Mathlib.Data.List.Basic

/-!
# A thread and its owner

`src/hy_thread.c`: `HyThreadCreate` allocates a context and starts a thread, which calls a callback
until it returns something else than 0 or a flag is set. `HyThreadDestroy` sets the flag, cancels
the thread, waits for its end and frees the context. Each access to what both sides use is a step of
its own, and the steps of the two come in any order.

The callback is a parameter, with the memory `σ` it works on and its positions `π`. A cancelled
thread ends when it is in a call that is a cancellation point, and may end in a step that passes
one. The name of the thread is not modelled; a step that reads it accesses the context.

## Main definitions

* `ThreadLoopCb σ π`: a callback
* `Worker π`: the position of the thread
* `ThreadMem π`: the context, and the thread with what is pending for it
* `OwnerPos`: the position of the owner in `HyThreadCreate` and `HyThreadDestroy`
* `workerStep`, `cancelStep`, `ownerStep`: the steps, undefined when they use a freed context or no
  thread
* `threadStep`: the module with a callback and its owner, as a component
-/

namespace HyUtils.Thread

/-- The cancellation points in a step: it passes none, it passes one on its way, or it waits in
one. -/
inductive CancelPoint
  | none
  | within
  | waiting
  deriving DecidableEq

/-- `HyThreadLoopCb_t`, step by step: a call begins at `entry`, and a step goes on at a position or
returns. -/
structure ThreadLoopCb (σ π : Type) where
  entry : π
  step : σ → π → Option (σ × (π ⊕ Int32))
  cancelPoint : π → CancelPoint

/-- `_thread_context_t`, of which only the flag changes. -/
structure ThreadContext where
  exitFlag : Int32
  deriving DecidableEq

/-- The position in `_thread_loop_cb`: before `usleep`, before it logs its start, before the
condition of the loop, before the call, in the callback, before it logs its end, and at the end.
There is none before the thread is created and after it has been waited for. -/
inductive Worker (π : Type)
  | none
  | sleep
  | start
  | check (ret : Int32)
  | call
  | inside (pos : π)
  | stop
  | ended
  deriving DecidableEq

/-- The context while it is allocated, whether the thread has been cancelled, and the thread. -/
structure ThreadMem (π : Type) where
  context : Option ThreadContext
  cancelled : Bool
  worker : Worker π
  deriving DecidableEq

/-- What a step shows: that it has to wait; that the thread is created, and what `HyThreadCreate`
returns; that the flag is set, and that `HyThreadDestroy` returns; that the callback is called, and
what it returns; and that the thread ends. -/
inductive ThreadOut
  | silent
  | blocked
  | spawned
  | created (ok : Bool)
  | flagged
  | destroyed
  | called
  | returned (ret : Int32)
  | ended
  deriving DecidableEq

variable {σ π : Type}

/-- The cancellation point in the next step of the thread: `usleep`, the output of a log line, or
one of the callback. -/
def Worker.cancelPoint (cb : ThreadLoopCb σ π) : Worker π → CancelPoint
  | .sleep => .waiting
  | .start | .stop => .within
  | .inside pos => cb.cancelPoint pos
  | .none | .check _ | .call | .ended => .none

/-- The next step of `_thread_loop_cb`, when it is not ended by a cancellation. -/
def loopStep (cb : ThreadLoopCb σ π) (shared : σ) (mem : ThreadMem π) :
    Option (σ × ThreadMem π × ThreadOut) :=
  match mem.worker with
  | .none | .ended => some (shared, mem, .blocked)
  | .sleep => some (shared, { mem with worker := .start }, .silent)
  | .start => do
    let _ ← mem.context
    return (shared, { mem with worker := .check 0 }, .silent)
  | .check ret => do
    let context ← mem.context
    let worker := if context.exitFlag = 0 ∧ ret = 0 then .call else .stop
    return (shared, { mem with worker }, .silent)
  | .call => do
    let _ ← mem.context
    return (shared, { mem with worker := .inside cb.entry }, .called)
  | .inside pos => do
    let (shared, next) ← cb.step shared pos
    match next with
    | .inl pos => return (shared, { mem with worker := .inside pos }, .silent)
    | .inr ret => return (shared, { mem with worker := .check ret }, .returned ret)
  | .stop => do
    let _ ← mem.context
    return (shared, { mem with worker := .ended }, .ended)

/-- The next step of the thread. One that waits in a cancellation point does not go on once it is
cancelled. -/
def workerStep (cb : ThreadLoopCb σ π) (shared : σ) (mem : ThreadMem π) :
    Option (σ × ThreadMem π × ThreadOut) :=
  if mem.cancelled ∧ mem.worker.cancelPoint cb = .waiting then
    some (shared, { mem with worker := .ended }, .ended)
  else loopStep cb shared mem

/-- A cancelled thread ends on its way, where that can happen. -/
def cancelStep (cb : ThreadLoopCb σ π) (mem : ThreadMem π) : ThreadMem π × ThreadOut :=
  if mem.cancelled ∧ mem.worker.cancelPoint cb ≠ .none then
    ({ mem with worker := .ended }, .ended)
  else (mem, .blocked)

/-- The position of the owner: in neither function; in `HyThreadCreate` before the allocation,
before `pthread_create` and before it logs the creation; in `HyThreadDestroy` before the flag is
set, before `pthread_cancel`, before `pthread_join` returns, before it logs the end and before it
frees the context. -/
inductive OwnerPos
  | idle
  | alloc
  | spawn
  | report
  | setFlag
  | cancel
  | join
  | reportEnd
  | free
  deriving DecidableEq

/-- The next step of the owner; `ok` is what an allocation, or `pthread_create`, answers. What
`pthread_create` returns is not looked at, and without a thread the id in the context is none. -/
def ownerStep (ok : Bool) (mem : ThreadMem π) :
    OwnerPos → Option (ThreadMem π × OwnerPos × ThreadOut)
  | .idle => some (mem, .idle, .blocked)
  | .alloc =>
    if ok then some ({ mem with context := some ⟨0⟩ }, .spawn, .silent)
    -- `HyThreadDestroy` of a null pointer returns at once
    else some (mem, .idle, .created false)
  | .spawn => do
    let _ ← mem.context
    if ok then return ({ mem with cancelled := false, worker := .sleep }, .report, .spawned)
    else return (mem, .report, .silent)
  | .report => do
    let _ ← mem.context
    return (mem, .idle, .created true)
  | .setFlag => do
    let context ← mem.context
    return ({ mem with context := some { context with exitFlag := 1 } }, .cancel, .flagged)
  | .cancel => do
    let _ ← mem.context
    match mem.worker with
    | .none => none
    | _ => return ({ mem with cancelled := true }, .join, .silent)
  | .join => do
    let _ ← mem.context
    match mem.worker with
    | .none => none
    | .ended => return ({ mem with worker := .none }, .reportEnd, .silent)
    | _ => return (mem, .join, .blocked)
  | .reportEnd => do
    let _ ← mem.context
    return (mem, .free, .silent)
  | .free => some ({ mem with context := none }, .idle, .destroyed)

/-! ## The module as a component -/

/-- The memory of the callback, that of the module, and the owner. -/
structure ThreadSystem (σ π : Type) where
  shared : σ
  mem : ThreadMem π
  owner : OwnerPos

/-- No thread and no context. -/
def ThreadSystem.start (shared : σ) : ThreadSystem σ π := ⟨shared, ⟨none, false, .none⟩, .idle⟩

/-- What happens next: the owner calls one of the two functions, or does something of its own with
the memory of the callback; the owner or the thread makes its next step; or a cancellation ends the
thread. -/
inductive ThreadOp (ω : Type)
  | create
  | destroy
  | app (a : ω)
  | owner (ok : Bool)
  | worker
  | cancelled
  deriving DecidableEq

/-- One step. The owner calls a function when it is in none, and `HyThreadCreate` when it has no
thread; `HyThreadDestroy` returns at once then. -/
def threadStep {ω : Type} (cb : ThreadLoopCb σ π) (app : σ → ω → Option σ)
    (s : ThreadSystem σ π) : ThreadOp ω → Option (ThreadSystem σ π × ThreadOut)
  | .create =>
    if s.owner = .idle ∧ s.mem.context = none then some ({ s with owner := .alloc }, .silent)
    else none
  | .destroy =>
    if s.owner = .idle then
      if s.mem.context = none then some (s, .destroyed)
      else some ({ s with owner := .setFlag }, .silent)
    else none
  | .app a =>
    if s.owner = .idle then (app s.shared a).map fun shared => ({ s with shared }, .silent)
    else none
  | .owner ok =>
    (ownerStep ok s.mem s.owner).map fun r => ({ s with mem := r.1, owner := r.2.1 }, r.2.2)
  | .worker =>
    (workerStep cb s.shared s.mem).map fun r => ({ s with shared := r.1, mem := r.2.1 }, r.2.2)
  | .cancelled =>
    let r := cancelStep cb s.mem
    some ({ s with mem := r.1 }, r.2)

end HyUtils.Thread
