import HyUtils.Foundation.Run
import HyUtils.Thread.Model
import Mathlib.Data.List.Chain

/-!
# The life of a thread

The owner may build what the callback works on before it creates the thread, and take it apart after
it has destroyed it: in between, whatever the order of the steps, the thread finds its context, and
afterwards there is no thread. A callback that gets to a cancellation point lets it be destroyed.

## Main definitions

* `Works cb I J`: the callback keeps `I` between calls, and `J` at its positions
* `Allowed`: what the owner does keeps these while there is a thread
* `Yields cb r`: the callback gets to a cancellation point or returns, by the rank `r`

## Main results

* `thread_finds_context`: no step uses a freed context, and after its end there is no thread
* `destroy_returns`: once the thread is cancelled, `HyThreadDestroy` returns within a bounded number
  of steps, in every order
-/

namespace HyUtils.Thread

open Runs

variable {σ π ω : Type} {cb : ThreadLoopCb σ π} {app : σ → ω → Option σ} {s s' t : ThreadSystem σ π}
  {mem mem' : ThreadMem π} {shared shared' : σ} {op : ThreadOp ω} {out : ThreadOut}
  {I : σ → Prop} {J : σ → π → Prop}

/-! ## The context is there -/

/-- The callback keeps `I` from call to call, and `J` at its positions. -/
structure Works (cb : ThreadLoopCb σ π) (I : σ → Prop) (J : σ → π → Prop) : Prop where
  entry : ∀ {shared}, I shared → J shared cb.entry
  step : ∀ {shared pos}, J shared pos → ∃ shared' next, cb.step shared pos = some (shared', next) ∧
    next.elim (J shared') fun _ => I shared'

/-- What the thread needs of the memory of the callback. -/
def Worker.Needs (I : σ → Prop) (J : σ → π → Prop) (shared : σ) : Worker π → Prop
  | .inside pos => J shared pos
  | .none | .ended => True
  | _ => I shared

/-- What changes for the callback from outside. -/
def Stable (I : σ → Prop) (J : σ → π → Prop) (shared shared' : σ) : Prop :=
  (I shared → I shared') ∧ ∀ pos, J shared pos → J shared' pos

theorem Stable.needs (h : Stable I J shared shared') {worker : Worker π}
    (hneeds : worker.Needs I J shared) : worker.Needs I J shared' := by
  cases worker with
  | inside pos => exact h.2 pos hneeds
  | none | ended => trivial
  | sleep | start | check | call | stop => exact h.1 hneeds

/-- The flag is set. -/
def ThreadMem.Flagged (mem : ThreadMem π) : Prop :=
  ∀ context, mem.context = some context → context.exitFlag ≠ 0

/-- Where the owner is, there is a context and a thread, and the thread is told to end. -/
def OwnerPos.Phase (mem : ThreadMem π) : OwnerPos → Prop
  | .idle => mem.context = none ↔ mem.worker = .none
  | .alloc => mem.context = none ∧ mem.worker = .none
  | .spawn | .reportEnd | .free => mem.context ≠ none ∧ mem.worker = .none
  | .report | .setFlag => mem.context ≠ none ∧ mem.worker ≠ .none
  | .cancel => mem.context ≠ none ∧ mem.worker ≠ .none ∧ mem.Flagged
  | .join => mem.context ≠ none ∧ mem.worker ≠ .none ∧ mem.Flagged ∧ mem.cancelled

/-- What the steps keep. -/
structure Sound (I : σ → Prop) (J : σ → π → Prop) (s : ThreadSystem σ π) : Prop where
  phase : s.owner.Phase s.mem
  needs : s.mem.worker.Needs I J s.shared
  ready : s.owner = .alloc ∨ s.owner = .spawn → I s.shared

theorem OwnerPos.Phase.context_ne_none {owner : OwnerPos} (h : owner.Phase mem)
    (hworker : mem.worker ≠ .none) : mem.context ≠ none := by
  cases owner with
  | idle => exact fun hcontext => hworker (h.mp hcontext)
  | alloc => exact absurd h.2 hworker
  | spawn | reportEnd | free | report | setFlag | cancel | join => exact h.1

/-- A step of the thread that keeps it one. -/
theorem OwnerPos.Phase.worker {owner : OwnerPos} (h : owner.Phase mem)
    (hworker : mem.worker ≠ .none) {worker : Worker π} (hnew : worker ≠ .none) :
    owner.Phase { mem with worker } := by
  have hcontext := h.context_ne_none hworker
  cases owner with
  | idle => exact iff_of_false hcontext hnew
  | alloc | spawn | reportEnd | free => exact absurd h.2 hworker
  | report | setFlag => exact ⟨hcontext, hnew⟩
  | cancel | join => exact ⟨hcontext, hnew, h.2.2⟩

theorem Sound.worker (h : Sound I J s) (hworker : s.mem.worker ≠ .none) (shared : σ)
    (worker : Worker π) (hnew : worker ≠ .none) (hneeds : worker.Needs I J shared) :
    Sound I J { s with shared, mem := { s.mem with worker } } where
  phase := h.phase.worker hworker hnew
  needs := hneeds
  ready howner := by
    have hphase := h.phase
    rcases howner with howner | howner
    · change s.owner = _ at howner
      rw [howner] at hphase
      exact absurd hphase.2 hworker
    · change s.owner = _ at howner
      rw [howner] at hphase
      exact absurd hphase.2 hworker

/-- The owner changes the memory of the callback. -/
theorem Sound.setShared (h : Sound I J s)
    (hstable : s.mem.worker = .none ∨ Stable I J s.shared shared')
    (hready : s.owner = .alloc ∨ s.owner = .spawn → I shared') :
    Sound I J { s with shared := shared' } where
  phase := h.phase
  needs := by
    rcases hstable with hnone | hstable
    · change s.mem.worker.Needs I J shared'
      rw [hnone]
      trivial
    · exact hstable.needs h.needs
  ready := hready

/-- **Every step of the thread** finds its context. -/
theorem Sound.loop_step (hcb : Works cb I J) (h : Sound I J s) :
    ∃ shared mem out, loopStep cb s.shared s.mem = some (shared, mem, out) ∧
      Sound I J { s with shared, mem } := by
  have hneeds := h.needs
  have hcontext := h.phase.context_ne_none
  have hgo := h.worker
  cases hworker : s.mem.worker with
  | none | ended => exact ⟨s.shared, s.mem, .blocked, by rw [loopStep, hworker], h⟩
  | sleep =>
    rw [hworker] at hneeds hgo
    exact ⟨s.shared, { s.mem with worker := .start }, .silent, by rw [loopStep, hworker],
      hgo nofun _ _ nofun hneeds⟩
  | start =>
    rw [hworker] at hneeds hgo hcontext
    obtain ⟨context, hsome⟩ := Option.ne_none_iff_exists'.mp (hcontext nofun)
    refine ⟨s.shared, { s.mem with worker := .check 0 }, .silent, ?_,
      hgo nofun _ _ nofun hneeds⟩
    simp [loopStep, hworker, hsome]
  | check ret =>
    rw [hworker] at hneeds hgo hcontext
    obtain ⟨context, hsome⟩ := Option.ne_none_iff_exists'.mp (hcontext nofun)
    refine ⟨s.shared, { s.mem with
      worker := if context.exitFlag = 0 ∧ ret = 0 then .call else .stop }, .silent, ?_,
      hgo nofun _ _ ?_ ?_⟩
    · simp [loopStep, hworker, hsome]
    · split_ifs <;> nofun
    · split_ifs <;> exact hneeds
  | call =>
    rw [hworker] at hneeds hgo hcontext
    obtain ⟨context, hsome⟩ := Option.ne_none_iff_exists'.mp (hcontext nofun)
    refine ⟨s.shared, { s.mem with worker := .inside cb.entry }, .called, ?_,
      hgo nofun _ _ nofun (hcb.entry hneeds)⟩
    simp [loopStep, hworker, hsome]
  | inside pos =>
    rw [hworker] at hneeds hgo
    obtain ⟨shared, next, hstep, hnext⟩ := hcb.step hneeds
    cases next with
    | inl pos =>
      refine ⟨shared, { s.mem with worker := .inside pos }, .silent, ?_,
        hgo nofun _ _ nofun hnext⟩
      simp [loopStep, hworker, hstep]
    | inr ret =>
      refine ⟨shared, { s.mem with worker := .check ret }, .returned ret, ?_,
        hgo nofun _ _ nofun hnext⟩
      simp [loopStep, hworker, hstep]
  | stop =>
    rw [hworker] at hgo hcontext
    obtain ⟨context, hsome⟩ := Option.ne_none_iff_exists'.mp (hcontext nofun)
    refine ⟨s.shared, { s.mem with worker := .ended }, .ended, ?_,
      hgo nofun _ _ nofun trivial⟩
    simp [loopStep, hworker, hsome]

/-- Ended by a cancellation. -/
theorem Sound.cancel (h : Sound I J s) (hpoint : s.mem.worker.cancelPoint cb ≠ .none) :
    Sound I J { s with mem := { s.mem with worker := .ended } } :=
  h.worker (fun hnone => hpoint (by rw [hnone]; rfl)) _ _ nofun trivial

/-- **Every step of the owner** finds the context, when the thread could be created. -/
theorem Sound.owner_step (h : Sound I J s) {ok : Bool} (hok : s.owner = .spawn → ok = true) :
    ∃ mem owner out, ownerStep ok s.mem s.owner = some (mem, owner, out) ∧
      Sound I J { s with mem, owner } := by
  have hphase := h.phase
  have hneeds := h.needs
  have hready := h.ready
  -- all positions behind the allocation have a context
  have hsome : s.mem.context ≠ none → ∃ context, s.mem.context = some context := fun hne =>
    Option.ne_none_iff_exists'.mp hne
  cases howner : s.owner with
  | idle => exact ⟨s.mem, .idle, .blocked, rfl, howner ▸ h.phase, h.needs, nofun⟩
  | alloc =>
    rw [howner] at hphase hready
    cases ok with
    | true =>
      exact ⟨{ s.mem with context := some ⟨0⟩ }, .spawn, .silent, rfl, ⟨nofun, hphase.2⟩, hneeds,
        fun _ => hready (.inl rfl)⟩
    | false =>
      exact ⟨s.mem, .idle, .created false, rfl, iff_of_true hphase.1 hphase.2, hneeds, nofun⟩
  | spawn =>
    rw [howner] at hphase hready
    obtain ⟨context, hsome⟩ := hsome hphase.1
    obtain rfl : ok = true := hok howner
    refine ⟨{ s.mem with cancelled := false, worker := .sleep }, .report, .spawned, ?_,
      ⟨hphase.1, nofun⟩, hready (.inr rfl), nofun⟩
    simp [ownerStep, hsome]
  | report =>
    rw [howner] at hphase
    obtain ⟨context, hsome⟩ := hsome hphase.1
    refine ⟨s.mem, .idle, .created true, ?_, iff_of_false hphase.1 hphase.2, hneeds, nofun⟩
    simp [ownerStep, hsome]
  | setFlag =>
    rw [howner] at hphase
    obtain ⟨context, hsome⟩ := hsome hphase.1
    refine ⟨{ s.mem with context := some { context with exitFlag := 1 } }, .cancel, .flagged, ?_,
      ⟨nofun, hphase.2, ?_⟩, hneeds, nofun⟩
    · simp [ownerStep, hsome]
    · rintro _ ⟨⟩
      exact fun hzero => nomatch hzero
  | cancel =>
    rw [howner] at hphase
    obtain ⟨context, hsome⟩ := hsome hphase.1
    refine ⟨{ s.mem with cancelled := true }, .join, .silent, ?_,
      ⟨hphase.1, hphase.2.1, hphase.2.2, rfl⟩, hneeds, nofun⟩
    cases hworker : s.mem.worker with
    | none => exact absurd hworker hphase.2.1
    | _ => simp [ownerStep, hsome, hworker]
  | join =>
    rw [howner] at hphase
    obtain ⟨context, hsome⟩ := hsome hphase.1
    by_cases hended : s.mem.worker = .ended
    · refine ⟨{ s.mem with worker := .none }, .reportEnd, .silent, ?_, ⟨hphase.1, rfl⟩, trivial,
        nofun⟩
      simp [ownerStep, hsome, hended]
    · refine ⟨s.mem, .join, .blocked, ?_, hphase, hneeds, nofun⟩
      cases hworker : s.mem.worker with
      | none => exact absurd hworker hphase.2.1
      | ended => exact absurd hworker hended
      | _ => simp [ownerStep, hsome, hworker]
  | reportEnd =>
    rw [howner] at hphase
    obtain ⟨context, hsome⟩ := hsome hphase.1
    refine ⟨s.mem, .free, .silent, ?_, hphase, hneeds, nofun⟩
    simp [ownerStep, hsome]
  | free =>
    rw [howner] at hphase
    exact ⟨{ s.mem with context := none }, .idle, .destroyed, rfl, iff_of_true rfl hphase.2,
      hneeds, nofun⟩

/-- The owner creates a thread when it has none and its memory is ready, it does nothing to that
memory that is not stable while there is a thread, and the thread can be created. -/
def Allowed (app : σ → ω → Option σ) (I : σ → Prop) (J : σ → π → Prop) (s : ThreadSystem σ π) :
    ThreadOp ω → Prop
  | .create => s.owner = .idle ∧ s.mem.context = none ∧ I s.shared
  | .destroy => s.owner = .idle
  | .app a => s.owner = .idle ∧ ∃ shared, app s.shared a = some shared ∧
    (s.mem.context ≠ none → Stable I J s.shared shared)
  | .owner ok => s.owner = .spawn → ok = true
  | .worker | .cancelled => True

/-- **One step.** -/
theorem Sound.step (hcb : Works cb I J) (h : Sound I J s) (hop : Allowed app I J s op) :
    ∃ s' out, threadStep cb app s op = some (s', out) ∧ Sound I J s' := by
  have hphase := h.phase
  cases op with
  | create =>
    obtain ⟨hidle, hcontext, hready⟩ := hop
    rw [hidle] at hphase
    exact ⟨_, _, if_pos ⟨hidle, hcontext⟩, ⟨hcontext, hphase.mp hcontext⟩, h.needs, fun _ => hready⟩
  | destroy =>
    have hidle : s.owner = .idle := hop
    rw [hidle] at hphase
    by_cases hcontext : s.mem.context = none
    · exact ⟨s, .destroyed, by rw [threadStep, if_pos hidle, if_pos hcontext], h⟩
    · refine ⟨{ s with owner := .setFlag }, .silent,
        by rw [threadStep, if_pos hidle, if_neg hcontext], ?_, h.needs, nofun⟩
      exact ⟨hcontext, fun hworker => hcontext (hphase.mpr hworker)⟩
  | app a =>
    obtain ⟨hidle, shared, happ, hstable⟩ := hop
    refine ⟨{ s with shared }, .silent, by rw [threadStep, if_pos hidle, happ]; rfl,
      h.setShared ?_ (by simp [hidle])⟩
    by_cases hcontext : s.mem.context = none
    · rw [hidle] at hphase
      exact .inl (hphase.mp hcontext)
    · exact .inr (hstable hcontext)
  | owner ok =>
    obtain ⟨mem, owner, out, hs, h'⟩ := h.owner_step hop
    exact ⟨_, out, by rw [threadStep, hs]; rfl, h'⟩
  | worker =>
    by_cases hwaits : s.mem.cancelled ∧ s.mem.worker.cancelPoint cb = .waiting
    · have hpoint : s.mem.worker.cancelPoint cb ≠ .none := by
        rw [hwaits.2]
        nofun
      exact ⟨_, .ended, by rw [threadStep, workerStep, if_pos hwaits]; rfl, h.cancel hpoint⟩
    · obtain ⟨shared, mem, out, hs, h'⟩ := h.loop_step hcb
      exact ⟨_, out, by rw [threadStep, workerStep, if_neg hwaits, hs]; rfl, h'⟩
  | cancelled =>
    by_cases hends : s.mem.cancelled ∧ s.mem.worker.cancelPoint cb ≠ .none
    · exact ⟨_, .ended, by rw [threadStep, cancelStep, if_pos hends], h.cancel hends.2⟩
    · exact ⟨s, .blocked, by rw [threadStep, cancelStep, if_neg hends], h⟩

theorem Sound.start (shared : σ) : Sound I J (.start shared : ThreadSystem σ π) :=
  ⟨iff_of_true rfl rfl, trivial, nofun⟩

theorem Sound.of_run (hcb : Works cb I J) (h : Sound I J s) {ops : List (ThreadOp ω)}
    {outs : List ThreadOut} (hops : EachStep (threadStep cb app) (Allowed app I J) s ops)
    (hrun : run (threadStep cb app) s ops = some (t, outs)) : Sound I J t :=
  run_invariant_of_eachStep (fun s op s' out h hop hs => by
    obtain ⟨t, out', ht, h'⟩ := h.step hcb hop
    cases ht.symm.trans hs
    exact h') h hops hrun

/-- **The thread finds its context**: whatever the callback works on is built before the thread is
created and taken apart after it is destroyed, and the callback works on it as long as it is there.
Then in every order of the steps of the owner, the thread and cancellations no step uses a freed
context, and whenever the owner has no context there is no thread. -/
theorem thread_finds_context (hcb : Works cb I J) {ops : List (ThreadOp ω)}
    (hops : EachStep (threadStep cb app) (Allowed app I J) (.start shared) ops) :
    ∃ s outs, run (threadStep cb app) (.start shared) ops = some (s, outs) ∧
      (s.owner = .idle → (s.mem.context = none ↔ s.mem.worker = .none)) := by
  have hstart : Sound I J (.start shared : ThreadSystem σ π) := .start shared
  obtain ⟨s, outs, hrun, h⟩ :=
    run_completes_of_eachStep (fun _ _ h hop => h.step hcb hop) hstart hops
  refine ⟨s, outs, hrun, fun hidle => ?_⟩
  have hphase := h.phase
  rwa [hidle] at hphase

/-- A callback that counts its calls, and waits in each. -/
def countCb : ThreadLoopCb ℕ Bool where
  entry := false
  step calls pos := some (if pos then (calls, .inr 0) else (calls + 1, .inl true))
  cancelPoint pos := if pos then .waiting else .none

theorem countCb_works : Works countCb (fun _ => True) fun _ _ => True where
  entry _ := trivial
  step {calls pos} _ := by cases pos <;> exact ⟨_, _, rfl, trivial⟩

/-- An owner that leaves the memory of the callback alone. -/
def leaveAlone (_ : ℕ) (a : Empty) : Option ℕ := a.elim

instance Allowed.decidable (s : ThreadSystem ℕ Bool) :
    ∀ op, Decidable (Allowed leaveAlone (fun _ => True) (fun _ _ => True) s op)
  | .create => inferInstanceAs (Decidable (_ ∧ _))
  | .destroy => inferInstanceAs (Decidable (_ = _))
  | .owner _ => inferInstanceAs (Decidable (_ → _))
  | .worker | .cancelled => inferInstanceAs (Decidable True)

/-- The thread is created and destroyed, and is in its second call by then. -/
def countOps : List (ThreadOp Empty) :=
  [.create, .owner true, .owner true, .worker, .owner true, .worker, .worker, .worker, .worker,
    .worker, .worker, .worker, .destroy, .owner true, .worker, .owner true]

theorem thread_finds_context_counting :
    ∃ s outs, run (threadStep countCb leaveAlone) (.start 0)
        (countOps ++ [.worker, .owner true, .owner true, .owner true]) = some (s, outs) ∧
      (s.owner = .idle → (s.mem.context = none ↔ s.mem.worker = .none)) :=
  thread_finds_context countCb_works (by decide +kernel)

/-! ## The end of `HyThreadDestroy` -/

/-- Each step of the callback that does not wait in a cancellation point, and does not return, comes
closer to one that does. -/
def Yields (cb : ThreadLoopCb σ π) (rank : π → ℕ) : Prop :=
  ∀ {shared pos shared' pos'}, cb.cancelPoint pos ≠ .waiting →
    cb.step shared pos = some (shared', .inl pos') → rank pos' < rank pos

/-- The steps that are left of a thread that is to end. -/
def Worker.left (entry : ℕ) (rank : π → ℕ) : Worker π → ℕ
  | .none | .ended => 0
  | .sleep | .stop => 1
  | .check _ => 2
  | .start => 3
  | .inside pos => rank pos + 3
  | .call => entry + 4

/-- The steps that are left of `HyThreadDestroy` from where the thread is cancelled. -/
def ThreadSystem.left (entry : ℕ) (rank : π → ℕ) (s : ThreadSystem σ π) : ℕ :=
  match s.owner with
  | .free => 1
  | .reportEnd => 2
  | _ => s.mem.worker.left entry rank + 3

/-- The owner waits for the thread, or has done so. -/
def Ending (s : ThreadSystem σ π) : Prop :=
  s.owner = .join ∨ s.owner = .reportEnd ∨ s.owner = .free

theorem loopStep_context (hs : loopStep cb shared mem = some (shared', mem', out)) :
    mem'.context = mem.context ∧ mem'.cancelled = mem.cancelled := by
  rw [loopStep] at hs
  cases hworker : mem.worker with
  | none | ended | sleep =>
    rw [hworker] at hs
    cases hs
    exact ⟨rfl, rfl⟩
  | start | call | stop | check =>
    rw [hworker] at hs
    obtain ⟨context, -, hs⟩ := Option.bind_eq_some_iff.mp hs
    cases hs
    exact ⟨rfl, rfl⟩
  | inside pos =>
    rw [hworker] at hs
    obtain ⟨⟨shared₁, next⟩, -, hs⟩ := Option.bind_eq_some_iff.mp hs
    cases next with
    | inl pos | inr ret =>
      cases hs
      exact ⟨rfl, rfl⟩

/-- The number of steps that are made, and not only waited for. -/
def made (outs : List ThreadOut) : ℕ := (outs.filter (· ≠ .blocked)).length

theorem made_cons (out : ThreadOut) (outs : List ThreadOut) :
    made (out :: outs) = (if out = .blocked then 0 else 1) + made outs := by
  rw [made, List.filter_cons]
  by_cases hout : out = .blocked
  · simp [hout, made]
  · simp [hout, made, Nat.add_comm]

/-- **Each step of a cancelled thread** comes closer to its end. -/
theorem left_workerStep {rank : π → ℕ} (hyields : Yields cb rank) (hcancelled : mem.cancelled)
    (hflag : mem.Flagged)
    (hs : workerStep cb shared mem = some (shared', mem', out)) :
    mem'.worker.left (rank cb.entry) rank + made [out] ≤
      mem.worker.left (rank cb.entry) rank := by
  rw [workerStep] at hs
  split_ifs at hs with hwaits
  · -- it ends where it waits
    cases hs
    have hpoint := hwaits.2
    cases hworker : mem.worker with
    | none | ended | check | call =>
      rw [hworker] at hpoint
      cases hpoint
    | sleep | start | stop | inside => exact Nat.succ_le_succ (Nat.zero_le _)
  · have hpoint : mem.worker.cancelPoint cb ≠ .waiting := fun hw => hwaits ⟨hcancelled, hw⟩
    rw [loopStep] at hs
    cases hworker : mem.worker with
    | none | ended =>
      rw [hworker] at hs
      cases hs
      exact hworker ▸ le_rfl
    | sleep =>
      rw [hworker] at hpoint
      exact absurd rfl hpoint
    | start | stop | call =>
      rw [hworker] at hs
      obtain ⟨context, -, hs⟩ := Option.bind_eq_some_iff.mp hs
      cases hs
      exact le_rfl
    | check ret =>
      rw [hworker] at hs
      obtain ⟨context, hcontext, hs⟩ := Option.bind_eq_some_iff.mp hs
      rw [if_neg fun hgo => hflag context hcontext hgo.1] at hs
      cases hs
      exact le_rfl
    | inside pos =>
      rw [hworker] at hs hpoint
      obtain ⟨⟨shared₁, next⟩, hstep, hs⟩ := Option.bind_eq_some_iff.mp hs
      cases next with
      | inl pos' =>
        cases hs
        exact Nat.succ_le_of_lt (Nat.add_lt_add_right (hyields hpoint hstep) 3)
      | inr ret =>
        cases hs
        exact Nat.le_add_left 3 _

theorem left_cancelStep (cb : ThreadLoopCb σ π) (mem : ThreadMem π) (entry : ℕ) (rank : π → ℕ) :
    (cancelStep cb mem).1.worker.left entry rank + made [(cancelStep cb mem).2] ≤
      mem.worker.left entry rank := by
  rw [cancelStep]
  split_ifs with hends
  · have hpoint := hends.2
    cases hworker : mem.worker with
    | none | ended | check | call =>
      rw [hworker] at hpoint
      exact absurd rfl hpoint
    | sleep | start | stop | inside => exact Nat.succ_le_succ (Nat.zero_le _)
  · exact le_rfl

/-- As long as `HyThreadDestroy` has not returned, a step is left. -/
theorem Ending.left_pos (h : Ending s) (entry : ℕ) (rank : π → ℕ) : 1 ≤ s.left entry rank := by
  rw [ThreadSystem.left]
  rcases h with howner | howner | howner <;> rw [howner]
  · exact Nat.succ_le_succ (Nat.zero_le _)
  · exact Nat.le_succ 1

theorem Ending.ownerStep (h : Ending s) (entry : ℕ) (rank : π → ℕ) {ok : Bool} {owner : OwnerPos}
    (hs : ownerStep ok s.mem s.owner = some (mem, owner, out)) (hout : out ≠ .destroyed) :
    Ending { s with mem, owner } ∧
      ThreadSystem.left entry rank { s with mem, owner } + made [out] ≤ s.left entry rank := by
  rcases h with howner | howner | howner
  · rw [howner] at hs
    obtain ⟨context, -, hs⟩ := Option.bind_eq_some_iff.mp hs
    rw [ThreadSystem.left, ThreadSystem.left, howner]
    split at hs
    · cases hs
    · cases hs
      exact ⟨.inr (.inl rfl), Nat.le_add_left 3 _⟩
    · cases hs
      exact ⟨.inl rfl, le_rfl⟩
  · rw [howner] at hs
    obtain ⟨context, -, hs⟩ := Option.bind_eq_some_iff.mp hs
    rw [ThreadSystem.left, ThreadSystem.left, howner]
    cases hs
    exact ⟨.inr (.inr rfl), le_rfl⟩
  · rw [howner] at hs
    cases hs
    exact absurd rfl hout

/-- **Each step** that is made while the owner waits comes closer to the end. -/
theorem Ending.step {rank : π → ℕ} (hyields : Yields cb rank) (h : Ending s)
    (hphase : s.owner.Phase s.mem) (hs : threadStep cb app s op = some (t, out))
    (hout : ∀ ok, op = .owner ok → out ≠ .destroyed) :
    Ending t ∧ t.left (rank cb.entry) rank + made [out] ≤ s.left (rank cb.entry) rank := by
  have hidle : s.owner ≠ .idle := by
    rcases h with howner | howner | howner <;> rw [howner] <;> nofun
  have hvacant : s.owner ≠ .join → s.mem.worker = .none := by
    intro hjoin
    rcases h with howner | howner | howner
    · exact absurd howner hjoin
    · rw [howner] at hphase
      exact hphase.2
    · rw [howner] at hphase
      exact hphase.2
  cases op with
  | create =>
    rw [threadStep, if_neg fun hidle' => hidle hidle'.1] at hs
    cases hs
  | destroy | app =>
    rw [threadStep, if_neg hidle] at hs
    cases hs
  | owner ok =>
    obtain ⟨⟨mem, owner, out'⟩, ho, hs⟩ := Option.map_eq_some_iff.mp hs
    cases hs
    exact h.ownerStep _ _ ho (hout ok rfl)
  | worker =>
    obtain ⟨⟨shared, mem, out'⟩, hw, hs⟩ := Option.map_eq_some_iff.mp hs
    cases hs
    refine ⟨h, ?_⟩
    by_cases howner : s.owner = .join
    · rw [howner] at hphase
      have hleft := left_workerStep hyields hphase.2.2.2 hphase.2.2.1 hw
      rw [ThreadSystem.left, ThreadSystem.left, howner]
      dsimp only
      omega
    · -- by now there is no thread
      rw [workerStep, loopStep, hvacant howner, if_neg fun hwaits => nomatch hwaits.2] at hw
      cases hw
      exact le_rfl
  | cancelled =>
    cases hs
    refine ⟨h, ?_⟩
    by_cases howner : s.owner = .join
    · have hleft := left_cancelStep cb s.mem (rank cb.entry) rank
      rw [ThreadSystem.left, ThreadSystem.left, howner]
      dsimp only
      omega
    · rw [cancelStep, hvacant howner, if_neg fun hends => absurd rfl hends.2]
      exact le_rfl

/-- A thread that has not ended makes a step. -/
theorem workerStep_ne_blocked (hnone : mem.worker ≠ .none) (hended : mem.worker ≠ .ended)
    (hs : workerStep cb shared mem = some (shared', mem', out)) : out ≠ .blocked := by
  rw [workerStep] at hs
  split_ifs at hs
  · cases hs
    nofun
  · rw [loopStep] at hs
    cases hworker : mem.worker with
    | none => exact absurd hworker hnone
    | ended => exact absurd hworker hended
    | sleep =>
      rw [hworker] at hs
      cases hs
      nofun
    | start | call | stop | check =>
      rw [hworker] at hs
      obtain ⟨context, -, hs⟩ := Option.bind_eq_some_iff.mp hs
      cases hs
      nofun
    | inside pos =>
      rw [hworker] at hs
      obtain ⟨⟨shared₁, next⟩, -, hs⟩ := Option.bind_eq_some_iff.mp hs
      cases next with
      | inl pos | inr ret =>
        cases hs
        nofun

/-- A step is possible while the owner waits: one of the thread, or the next of the owner once that
has ended. -/
theorem Sound.progress (app : σ → ω → Option σ) (hcb : Works cb I J) (h : Sound I J s)
    (hending : Ending s) :
    ∃ op s' out, (op = .worker ∨ op = .owner true) ∧
      threadStep cb app s op = some (s', out) ∧ out ≠ .blocked := by
  by_cases hwaits : s.owner = .join ∧ s.mem.worker ≠ .ended
  · have hnone : s.mem.worker ≠ .none := by
      have hphase := h.phase
      rw [hwaits.1] at hphase
      exact hphase.2.1
    have hallowed : Allowed app I J s .worker := trivial
    obtain ⟨s', out, hs, -⟩ := h.step hcb hallowed
    obtain ⟨r, hw, heq⟩ := Option.map_eq_some_iff.mp hs
    refine ⟨.worker, s', out, .inl rfl, hs, ?_⟩
    cases heq
    exact workerStep_ne_blocked hnone hwaits.2 hw
  · have hallowed : Allowed app I J s (.owner true) := fun _ => rfl
    obtain ⟨s', out, hs, -⟩ := h.step hcb hallowed
    obtain ⟨r, ho, heq⟩ := Option.map_eq_some_iff.mp hs
    refine ⟨.owner true, s', out, .inr rfl, hs, ?_⟩
    cases heq
    rcases hending with howner | howner | howner
    · have hended : s.mem.worker = .ended := by simpa [howner] using hwaits
      rw [howner] at ho
      obtain ⟨context, -, ho⟩ := Option.bind_eq_some_iff.mp ho
      rw [hended] at ho
      cases ho
      nofun
    · rw [howner] at ho
      obtain ⟨context, -, ho⟩ := Option.bind_eq_some_iff.mp ho
      cases ho
      nofun
    · rw [howner] at ho
      cases ho
      nofun

/-- A run while the owner waits. -/
theorem Ending.run {rank : π → ℕ} (hcb : Works cb I J) (hyields : Yields cb rank) (h : Ending s)
    (hsound : Sound I J s) {ops : List (ThreadOp ω)} {outs : List ThreadOut}
    (hops : EachStep (threadStep cb app) (Allowed app I J) s ops)
    (hrun : run (threadStep cb app) s ops = some (t, outs)) (hout : .destroyed ∉ outs) :
    Ending t ∧ Sound I J t ∧
      t.left (rank cb.entry) rank + made outs ≤ s.left (rank cb.entry) rank := by
  induction ops generalizing s outs with
  | nil =>
    cases hrun
    exact ⟨h, hsound, le_rfl⟩
  | cons op ops ih =>
    obtain ⟨s₁, out, outs, hs, hrest, rfl⟩ := run_cons_eq_some.mp hrun
    obtain ⟨hout₁, hout⟩ := not_or.mp (List.mem_cons.not.mp hout)
    obtain ⟨s₁', out', hs', hsound₁⟩ := hsound.step hcb hops.1
    cases hs'.symm.trans hs
    obtain ⟨h₁, hleft⟩ := h.step hyields hsound.phase hs fun _ _ => Ne.symm hout₁
    obtain ⟨hend, hsound', hrest'⟩ := ih h₁ hsound₁ (hops.2 _ _ hs) hrest hout
    refine ⟨hend, hsound', ?_⟩
    rw [made_cons]
    rw [made_cons, show made [] = 0 from rfl] at hleft
    omega

/-- **`HyThreadDestroy` returns**: once it has cancelled a thread whose callback gets to a
cancellation point or returns, a bounded number of steps is made before it returns, in every order,
and until then a step is always possible. -/
theorem destroy_returns {rank : π → ℕ} (hcb : Works cb I J) (hyields : Yields cb rank)
    {ops ops' : List (ThreadOp ω)} {outs outs' : List ThreadOut}
    (hops : EachStep (threadStep cb app) (Allowed app I J) (.start shared) ops)
    (hrun : run (threadStep cb app) (.start shared) ops = some (s, outs)) (hjoin : s.owner = .join)
    (hops' : EachStep (threadStep cb app) (Allowed app I J) s ops')
    (hrun' : run (threadStep cb app) s ops' = some (t, outs')) (hout : .destroyed ∉ outs') :
    made outs' ≤ s.mem.worker.left (rank cb.entry) rank + 2 ∧
      ∃ op s' out, (op = .worker ∨ op = .owner true) ∧
        threadStep cb app t op = some (s', out) ∧ out ≠ .blocked := by
  have hsound : Sound I J s := (Sound.start shared).of_run hcb hops hrun
  obtain ⟨hend, hsound', hleft⟩ :=
    Ending.run hcb hyields (.inl hjoin) hsound hops' hrun' hout
  refine ⟨?_, hsound'.progress app hcb hend⟩
  have hlast := hend.left_pos (rank cb.entry) rank
  have hfirst : s.left (rank cb.entry) rank = s.mem.worker.left (rank cb.entry) rank + 3 := by
    rw [ThreadSystem.left, hjoin]
  omega

theorem countCb_yields : Yields countCb fun pos => if pos then 0 else 1 := by
  intro calls pos calls' pos' hpoint hs
  cases pos with
  | true => exact absurd rfl hpoint
  | false =>
    cases hs
    exact Nat.one_pos

theorem destroy_returns_counting :
    ∃ s outs t outs', run (threadStep countCb leaveAlone) (.start 0) countOps = some (s, outs) ∧
      run (threadStep countCb leaveAlone) s [.worker] = some (t, outs') ∧
      made outs' ≤ s.mem.worker.left 1 (fun pos => if pos then 0 else 1) + 2 ∧
      ∃ op s' out, (op = .worker ∨ op = .owner true) ∧
        threadStep countCb leaveAlone t op = some (s', out) ∧ out ≠ .blocked := by
  have hwhole : (run (threadStep countCb leaveAlone) (.start 0) (countOps ++ [.worker])).map
      (fun r => decide (.destroyed ∈ r.2)) = some false := by decide +kernel
  obtain ⟨⟨t, outs⟩, hboth, hdestroyed⟩ := Option.map_eq_some_iff.mp hwhole
  obtain ⟨s, outs, outs', hrun, hrun', rfl⟩ := run_append_eq_some.mp hboth
  have hstate : (run (threadStep countCb leaveAlone) (.start 0) countOps).map
      (fun r => r.1.owner) = some .join := by decide +kernel
  rw [hrun] at hstate
  have hout : .destroyed ∉ outs' := fun hmem =>
    of_decide_eq_false hdestroyed (List.mem_append_right _ hmem)
  have hops' : EachStep (threadStep countCb leaveAlone)
      (Allowed leaveAlone (fun _ => True) fun _ _ => True) s [.worker] :=
    ⟨trivial, fun _ _ _ => trivial⟩
  exact ⟨s, outs, t, outs', hrun, hrun', destroy_returns countCb_works countCb_yields
    (by decide +kernel) hrun (Option.some.inj hstate) hops' hrun' hout⟩

end HyUtils.Thread
