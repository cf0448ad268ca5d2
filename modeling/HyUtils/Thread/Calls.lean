import HyUtils.Foundation.Run
import HyUtils.Thread.Model
import Mathlib.Data.List.Chain

/-!
# The calls of a thread

In every run the callback is called again only after it has returned 0, and at most once after the
flag is set. This is so for any callback and for anything that the owner does.

## Main definitions

* `events outs`, `Follows`: what is seen of threads, and what is seen next
* `Quiet`: the flag is set

## Main results

* `calls_in_turn`: the events of threads follow one another, with at most one call after the flag
-/

namespace HyUtils.Thread

open Runs

variable {σ π ω : Type} {cb : ThreadLoopCb σ π} {app : σ → ω → Option σ} {s t : ThreadSystem σ π}
  {mem mem' : ThreadMem π} {shared shared' : σ} {op : ThreadOp ω} {out : ThreadOut}

/-! ## What is seen next -/

/-- What is seen of a thread. -/
def ThreadOut.isEvent : ThreadOut → Bool
  | .spawned | .called | .returned _ | .ended => true
  | _ => false

/-- What is seen next of a thread, and after its end of the next one. -/
def Follows : ThreadOut → ThreadOut → Prop
  | .ended, .spawned => True
  | .spawned, .called => True
  | .called, .returned _ => True
  | .returned ret, .called => ret = 0
  | .spawned, .ended | .called, .ended | .returned _, .ended => True
  | _, _ => False

/-- What was seen last, where the thread is. -/
def Worker.Turn (last : ThreadOut) : Worker π → Prop
  | .none | .ended => last = .ended
  | .sleep | .start => last = .spawned
  | .check ret => last = .spawned ∧ ret = 0 ∨ last = .returned ret
  | .call => last = .spawned ∨ last = .returned 0
  | .inside _ => last = .called
  | .stop => last = .spawned ∨ ∃ ret, last = .returned ret

/-- A step takes its turn. -/
def Turned (last out : ThreadOut) (worker : Worker π) : Prop :=
  if out.isEvent then Follows last out ∧ worker.Turn out else worker.Turn last

theorem Turned.silent {last : ThreadOut} {worker : Worker π} (h : worker.Turn last) :
    Turned last .silent worker := h

/-- Whoever is alive may be ended. -/
theorem Worker.Turn.ended {last : ThreadOut} {worker : Worker π} (h : worker.Turn last)
    (hpoint : worker.cancelPoint cb ≠ .none) : Turned last .ended (.ended : Worker π) := by
  refine ⟨?_, rfl⟩
  cases worker with
  | none | ended | check | call => exact absurd rfl hpoint
  | sleep | start | inside =>
    cases h
    trivial
  | stop => obtain rfl | ⟨ret, rfl⟩ := h <;> trivial

/-- Without a thread the thread makes no step, and a step makes none. -/
structure LoopStep (mem mem' : ThreadMem π) (last out : ThreadOut) : Prop where
  context : mem'.context = mem.context
  none : mem.worker = .none → mem' = mem ∧ out = .blocked
  turned : Turned last out mem'.worker

theorem LoopStep.alive {last : ThreadOut} {worker : Worker π} (hworker : mem.worker = worker)
    (halive : worker ≠ .none) {worker' : Worker π} (hturned : Turned last out worker') :
    LoopStep mem { mem with worker := worker' } last out :=
  ⟨rfl, fun hnone => absurd (hworker.symm.trans hnone) halive, hturned⟩

theorem LoopStep.of_loopStep {last : ThreadOut} (hturn : mem.worker.Turn last)
    (hs : loopStep cb shared mem = some (shared', mem', out)) : LoopStep mem mem' last out := by
  rw [loopStep] at hs
  cases hworker : mem.worker with
  | none | ended =>
    rw [hworker] at hs
    cases hs
    exact ⟨rfl, fun _ => ⟨rfl, rfl⟩, hturn⟩
  | sleep =>
    rw [hworker] at hs hturn
    cases hs
    exact .alive hworker nofun hturn
  | start =>
    rw [hworker] at hs hturn
    obtain ⟨context, -, hs⟩ := Option.bind_eq_some_iff.mp hs
    cases hs
    exact .alive hworker nofun (.silent (.inl ⟨hturn, rfl⟩))
  | check ret =>
    rw [hworker] at hs hturn
    obtain ⟨context, -, hs⟩ := Option.bind_eq_some_iff.mp hs
    cases hs
    refine .alive hworker nofun (.silent ?_)
    split_ifs with hgo
    · -- the loop goes on, so what was returned is 0
      exact hturn.imp And.left fun hlast => hgo.2 ▸ hlast
    · exact hturn.imp And.left fun hlast => ⟨ret, hlast⟩
  | call =>
    rw [hworker] at hs hturn
    obtain ⟨context, -, hs⟩ := Option.bind_eq_some_iff.mp hs
    cases hs
    refine .alive hworker nofun ⟨?_, rfl⟩
    obtain rfl | rfl := hturn
    · trivial
    · exact rfl
  | inside pos =>
    rw [hworker] at hs hturn
    obtain ⟨⟨shared₁, next⟩, -, hs⟩ := Option.bind_eq_some_iff.mp hs
    obtain rfl : last = .called := hturn
    cases next with
    | inl pos =>
      cases hs
      exact .alive hworker nofun (.silent rfl)
    | inr ret =>
      cases hs
      exact .alive hworker nofun ⟨trivial, .inr rfl⟩
  | stop =>
    rw [hworker] at hs hturn
    obtain ⟨context, -, hs⟩ := Option.bind_eq_some_iff.mp hs
    cases hs
    refine .alive hworker nofun ⟨?_, rfl⟩
    obtain rfl | ⟨ret, rfl⟩ := hturn <;> trivial

/-- Where there is no thread. -/
structure Vacant (s : ThreadSystem σ π) : Prop where
  context : s.mem.context = none → s.mem.worker = .none
  owner : s.owner = .alloc ∨ s.owner = .spawn ∨ s.owner = .reportEnd ∨ s.owner = .free →
    s.mem.worker = .none

/-- **One step**, by what was seen last. -/
theorem turned_step {last : ThreadOut} (hvacant : Vacant s) (hturn : s.mem.worker.Turn last)
    (hs : threadStep cb app s op = some (t, out)) :
    Vacant t ∧ Turned last out t.mem.worker := by
  cases op with
  | create =>
    rw [threadStep] at hs
    split_ifs at hs with hidle
    cases hs
    exact ⟨⟨hvacant.context, fun _ => hvacant.context hidle.2⟩, hturn⟩
  | destroy =>
    rw [threadStep] at hs
    split_ifs at hs with hidle hcontext
    · cases hs
      exact ⟨hvacant, hturn⟩
    · cases hs
      exact ⟨⟨hvacant.context, by simp⟩, hturn⟩
  | app a =>
    rw [threadStep] at hs
    split_ifs at hs with hidle
    obtain ⟨shared, -, hs⟩ := Option.map_eq_some_iff.mp hs
    cases hs
    exact ⟨⟨hvacant.context, hvacant.owner⟩, hturn⟩
  | worker =>
    obtain ⟨⟨shared, mem, out'⟩, hw, hs⟩ := Option.map_eq_some_iff.mp hs
    cases hs
    rw [workerStep] at hw
    split_ifs at hw with hwaits
    · have hpoint : s.mem.worker.cancelPoint cb ≠ .none := by
        rw [hwaits.2]
        nofun
      have hnone : s.mem.worker ≠ .none := fun hnone => hpoint (by rw [hnone]; rfl)
      cases hw
      exact ⟨⟨fun hc => absurd (hvacant.context hc) hnone,
        fun ho => absurd (hvacant.owner ho) hnone⟩, hturn.ended hpoint⟩
    · obtain ⟨hcontext, hnone, hturned⟩ := LoopStep.of_loopStep hturn hw
      refine ⟨⟨fun hc => ?_, fun ho => ?_⟩, hturned⟩
      · have hworker := hvacant.context (hcontext.symm.trans hc)
        exact (hnone hworker).1 ▸ hworker
      · have hworker := hvacant.owner ho
        exact (hnone hworker).1 ▸ hworker
  | cancelled =>
    cases hs
    rw [cancelStep]
    split_ifs with hends
    · have hnone : s.mem.worker ≠ .none := fun hnone => hends.2 (by rw [hnone]; rfl)
      exact ⟨⟨fun hc => absurd (hvacant.context hc) hnone,
        fun ho => absurd (hvacant.owner ho) hnone⟩, hturn.ended hends.2⟩
    · exact ⟨hvacant, hturn⟩
  | owner ok =>
    obtain ⟨⟨mem, owner, out'⟩, ho, hs⟩ := Option.map_eq_some_iff.mp hs
    cases hs
    have hfree := hvacant.owner
    have hcontext := hvacant.context
    cases howner : s.owner with
    | idle =>
      rw [howner] at ho
      cases ho
      exact ⟨⟨hcontext, by simp⟩, hturn⟩
    | alloc =>
      rw [howner] at ho hfree
      cases ok with
      | true =>
        cases ho
        exact ⟨⟨nofun, fun _ => hfree (.inl rfl)⟩, hturn⟩
      | false =>
        cases ho
        exact ⟨⟨hcontext, by simp⟩, hturn⟩
    | spawn =>
      rw [howner] at ho hfree
      obtain ⟨context, hsome, ho⟩ := Option.bind_eq_some_iff.mp ho
      have hnone := hfree (.inr (.inl rfl))
      rw [hnone] at hturn
      cases ok with
      | true =>
        cases ho
        obtain rfl : last = .ended := hturn
        refine ⟨⟨fun hc => ?_, by simp⟩, trivial, rfl⟩
        cases hsome.symm.trans hc
      | false =>
        cases ho
        exact ⟨⟨hcontext, by simp⟩, hnone ▸ hturn⟩
    | report =>
      rw [howner] at ho
      obtain ⟨context, hsome, ho⟩ := Option.bind_eq_some_iff.mp ho
      cases ho
      exact ⟨⟨hcontext, by simp⟩, hturn⟩
    | setFlag =>
      rw [howner] at ho
      obtain ⟨context, hsome, ho⟩ := Option.bind_eq_some_iff.mp ho
      cases ho
      exact ⟨⟨nofun, by simp⟩, hturn⟩
    | cancel =>
      rw [howner] at ho
      obtain ⟨context, hsome, ho⟩ := Option.bind_eq_some_iff.mp ho
      cases hworker : s.mem.worker with
      | none =>
        rw [hworker] at ho
        cases ho
      | _ =>
        rw [hworker] at ho hcontext hturn
        cases ho
        exact ⟨⟨hcontext, by simp⟩, hturn⟩
    | join =>
      rw [howner] at ho
      obtain ⟨context, hsome, ho⟩ := Option.bind_eq_some_iff.mp ho
      cases hworker : s.mem.worker with
      | none =>
        rw [hworker] at ho
        cases ho
      | ended =>
        rw [hworker] at ho hturn
        cases ho
        exact ⟨⟨fun _ => rfl, fun _ => rfl⟩, hturn⟩
      | _ =>
        rw [hworker] at ho
        cases ho
        exact ⟨⟨hcontext, by simp⟩, hturn⟩
    | reportEnd =>
      rw [howner] at ho hfree
      obtain ⟨context, hsome, ho⟩ := Option.bind_eq_some_iff.mp ho
      cases ho
      exact ⟨⟨hcontext, fun _ => hfree (.inr (.inr (.inl rfl)))⟩, hturn⟩
    | free =>
      rw [howner] at ho hfree
      cases ho
      exact ⟨⟨fun _ => hfree (.inr (.inr (.inr rfl))), by simp⟩, hturn⟩

/-- The events of threads. -/
def events (outs : List ThreadOut) : List ThreadOut := outs.filter ThreadOut.isEvent

/-- The last event; before the first one it is as if a thread had ended. -/
def lastEvent (outs : List ThreadOut) : ThreadOut := (events outs).getLastD .ended

theorem events_concat (outs : List ThreadOut) (out : ThreadOut) :
    events (outs ++ [out]) = if out.isEvent then events outs ++ [out] else events outs := by
  rw [events, List.filter_append, List.filter_singleton]
  split_ifs with hevent
  · rw [hevent]
    rfl
  · rw [Bool.not_eq_true] at hevent
    rw [hevent]
    exact List.append_nil _

theorem Turned.concat {outs : List ThreadOut} {worker : Worker π}
    (h : Turned (lastEvent outs) out worker) (hchain : (.ended :: events outs).IsChain Follows) :
    (.ended :: events (outs ++ [out])).IsChain Follows ∧
      worker.Turn (lastEvent (outs ++ [out])) := by
  rw [Turned] at h
  rw [lastEvent, events_concat]
  split_ifs at h ⊢ with hevent
  · refine ⟨?_, by rw [List.getLastD_concat]; exact h.2⟩
    -- the new event follows the last one
    rw [← List.cons_append]
    refine hchain.append (.singleton out) fun x hx y hy => ?_
    obtain rfl : out = y := by simpa using hy
    obtain rfl : lastEvent outs = x := by simpa [lastEvent, List.getLast?_cons] using hx
    exact h.1
  · exact ⟨hchain, h⟩

/-! ## After the flag is set -/

/-- The flag of the context is set, or there is no thread. -/
def Quiet (s : ThreadSystem σ π) : Prop :=
  s.mem.worker = .none ∨ ∀ context, s.mem.context = some context → context.exitFlag ≠ 0

/-- The calls the thread makes although the flag is set. -/
def Worker.pending : Worker π → ℕ
  | .call => 1
  | _ => 0

/-- A step after the flag is set. -/
theorem quiet_loopStep (hquiet : ∀ context, mem.context = some context → context.exitFlag ≠ 0)
    (hs : loopStep cb shared mem = some (shared', mem', out)) :
    mem'.context = mem.context ∧ [out].count .called + mem'.worker.pending ≤ mem.worker.pending := by
  rw [loopStep] at hs
  cases hworker : mem.worker with
  | none | ended | sleep =>
    rw [hworker] at hs
    cases hs
    exact ⟨rfl, by simp [hworker, Worker.pending]⟩
  | start | call | stop =>
    rw [hworker] at hs
    obtain ⟨context, -, hs⟩ := Option.bind_eq_some_iff.mp hs
    cases hs
    exact ⟨rfl, by simp [Worker.pending]⟩
  | check ret =>
    rw [hworker] at hs
    obtain ⟨context, hcontext, hs⟩ := Option.bind_eq_some_iff.mp hs
    have hstop : ¬ (context.exitFlag = 0 ∧ ret = 0) := fun hgo => hquiet context hcontext hgo.1
    rw [if_neg hstop] at hs
    cases hs
    exact ⟨rfl, by simp [Worker.pending]⟩
  | inside pos =>
    rw [hworker] at hs
    obtain ⟨⟨shared₁, next⟩, -, hs⟩ := Option.bind_eq_some_iff.mp hs
    cases next with
    | inl pos | inr ret =>
      cases hs
      exact ⟨rfl, by simp [Worker.pending]⟩

/-- The steps of the owner, as far as the thread is concerned. -/
theorem quiet_ownerStep {ok : Bool} {owner owner' : OwnerPos}
    (hvacant : owner = .alloc → mem.worker = .none)
    (hquiet : mem.worker = .none ∨ ∀ context, mem.context = some context → context.exitFlag ≠ 0)
    (hs : ownerStep ok mem owner = some (mem', owner', out)) (hout : out ≠ .spawned) :
    (mem'.worker = .none ∨ ∀ context, mem'.context = some context → context.exitFlag ≠ 0) ∧
      out ≠ .called ∧ mem'.worker.pending ≤ mem.worker.pending := by
  cases owner with
  | idle =>
    cases hs
    exact ⟨hquiet, nofun, le_rfl⟩
  | alloc =>
    cases ok with
    | true =>
      cases hs
      exact ⟨.inl (hvacant rfl), nofun, le_rfl⟩
    | false =>
      cases hs
      exact ⟨hquiet, nofun, le_rfl⟩
  | spawn =>
    obtain ⟨context, -, hs⟩ := Option.bind_eq_some_iff.mp hs
    cases ok with
    | true =>
      cases hs
      exact absurd rfl hout
    | false =>
      cases hs
      exact ⟨hquiet, nofun, le_rfl⟩
  | report | reportEnd =>
    obtain ⟨context, -, hs⟩ := Option.bind_eq_some_iff.mp hs
    cases hs
    exact ⟨hquiet, nofun, le_rfl⟩
  | setFlag =>
    obtain ⟨context, -, hs⟩ := Option.bind_eq_some_iff.mp hs
    cases hs
    refine ⟨.inr ?_, nofun, le_rfl⟩
    rintro _ ⟨⟩
    exact fun h => nomatch h
  | cancel =>
    obtain ⟨context, -, hs⟩ := Option.bind_eq_some_iff.mp hs
    cases hworker : mem.worker with
    | none =>
      rw [hworker] at hs
      cases hs
    | _ =>
      rw [hworker] at hs hquiet
      cases hs
      exact ⟨hquiet, nofun, le_rfl⟩
  | join =>
    obtain ⟨context, -, hs⟩ := Option.bind_eq_some_iff.mp hs
    cases hworker : mem.worker with
    | none =>
      rw [hworker] at hs
      cases hs
    | ended =>
      rw [hworker] at hs
      cases hs
      exact ⟨.inl rfl, nofun, le_rfl⟩
    | _ =>
      rw [hworker] at hs hquiet
      cases hs
      exact ⟨by rwa [hworker], nofun, by rw [hworker]⟩
  | free =>
    cases hs
    exact ⟨.inr nofun, nofun, le_rfl⟩

theorem quiet_step (hvacant : Vacant s) (hquiet : Quiet s)
    (hs : threadStep cb app s op = some (t, out)) (hout : out ≠ .spawned) :
    Quiet t ∧ [out].count .called + t.mem.worker.pending ≤ s.mem.worker.pending := by
  cases op with
  | create =>
    rw [threadStep] at hs
    split_ifs at hs
    cases hs
    exact ⟨hquiet, by simp⟩
  | destroy =>
    rw [threadStep] at hs
    split_ifs at hs
    · cases hs
      exact ⟨hquiet, by simp⟩
    · cases hs
      exact ⟨hquiet, by simp⟩
  | app a =>
    rw [threadStep] at hs
    split_ifs at hs
    obtain ⟨shared, -, hs⟩ := Option.map_eq_some_iff.mp hs
    cases hs
    exact ⟨hquiet, by simp⟩
  | owner ok =>
    obtain ⟨⟨mem, owner, out'⟩, ho, hs⟩ := Option.map_eq_some_iff.mp hs
    cases hs
    obtain ⟨hquiet', hcalled, hpending⟩ :=
      quiet_ownerStep (fun howner => hvacant.owner (.inl howner)) hquiet ho hout
    exact ⟨hquiet', by simpa [hcalled] using hpending⟩
  | worker =>
    obtain ⟨⟨shared, mem, out'⟩, hw, hs⟩ := Option.map_eq_some_iff.mp hs
    cases hs
    rw [workerStep] at hw
    split_ifs at hw with hwaits
    · cases hw
      refine ⟨hquiet.imp (fun hnone => ?_) id, by simp [Worker.pending]⟩
      rw [hnone] at hwaits
      cases hwaits.2
    · rcases hquiet with hnone | hset
      · rw [loopStep, hnone] at hw
        cases hw
        exact ⟨.inl hnone, by simp⟩
      · obtain ⟨hcontext, hpending⟩ := quiet_loopStep hset hw
        exact ⟨.inr fun context hc => hset context (hcontext ▸ hc), hpending⟩
  | cancelled =>
    cases hs
    rw [cancelStep]
    split_ifs with hends
    · refine ⟨hquiet.imp (fun hnone => ?_) id, by simp [Worker.pending]⟩
      rw [hnone] at hends
      exact absurd rfl hends.2
    · exact ⟨hquiet, by simp⟩

theorem loopStep_ne_flagged (hs : loopStep cb shared mem = some (shared', mem', out)) :
    out ≠ .flagged := by
  rw [loopStep] at hs
  cases hworker : mem.worker with
  | none | ended | sleep =>
    rw [hworker] at hs
    cases hs
    nofun
  | start | call | stop | check =>
    rw [hworker] at hs
    obtain ⟨context, -, hs⟩ := Option.bind_eq_some_iff.mp hs
    cases hs
    nofun
  | inside pos =>
    rw [hworker] at hs
    obtain ⟨⟨shared₁, next⟩, -, hs⟩ := Option.bind_eq_some_iff.mp hs
    cases next with
    | inl pos | inr ret =>
      cases hs
      nofun

/-- The flag is set where that is seen. -/
theorem quiet_of_flagged (hs : threadStep cb app s op = some (t, .flagged)) : Quiet t := by
  cases op with
  | create | destroy =>
    rw [threadStep] at hs
    split_ifs at hs <;> cases hs
  | app a =>
    rw [threadStep] at hs
    split_ifs at hs
    obtain ⟨shared, -, hs⟩ := Option.map_eq_some_iff.mp hs
    cases hs
  | worker =>
    obtain ⟨⟨shared, mem, out⟩, hw, hs⟩ := Option.map_eq_some_iff.mp hs
    cases hs
    rw [workerStep] at hw
    split_ifs at hw
    · cases hw
    · exact absurd rfl (loopStep_ne_flagged hw)
  | cancelled =>
    rw [threadStep, cancelStep] at hs
    split_ifs at hs <;> cases hs
  | owner ok =>
    obtain ⟨⟨mem, owner, out⟩, ho, hs⟩ := Option.map_eq_some_iff.mp hs
    cases hs
    cases howner : s.owner with
    | setFlag =>
      rw [howner] at ho
      obtain ⟨context, -, ho⟩ := Option.bind_eq_some_iff.mp ho
      cases ho
      right
      rintro _ ⟨⟩
      exact fun h => nomatch h
    | idle | free =>
      rw [howner] at ho
      cases ho
    | alloc =>
      rw [howner, ownerStep] at ho
      split_ifs at ho <;> cases ho
    | spawn =>
      rw [howner] at ho
      obtain ⟨context, -, ho⟩ := Option.bind_eq_some_iff.mp ho
      split_ifs at ho <;> cases ho
    | report | reportEnd =>
      rw [howner] at ho
      obtain ⟨context, -, ho⟩ := Option.bind_eq_some_iff.mp ho
      cases ho
    | cancel | join =>
      rw [howner] at ho
      obtain ⟨context, -, ho⟩ := Option.bind_eq_some_iff.mp ho
      split at ho <;> cases ho

/-! ## Runs -/

/-- What the outputs so far say of the state. -/
structure InTurn (outs : List ThreadOut) (s : ThreadSystem σ π) : Prop where
  vacant : Vacant s
  chain : (.ended :: events outs).IsChain Follows
  turn : s.mem.worker.Turn (lastEvent outs)
  flagged : ∀ pre post, outs = pre ++ .flagged :: post → .spawned ∉ post →
    Quiet s ∧ post.count .called + s.mem.worker.pending ≤ 1

theorem InTurn.step {outs : List ThreadOut} (h : InTurn outs s)
    (hs : threadStep cb app s op = some (t, out)) : InTurn (outs ++ [out]) t := by
  obtain ⟨hvacant, hturned⟩ := turned_step h.vacant h.turn hs
  obtain ⟨hchain, hturn⟩ := hturned.concat h.chain
  refine ⟨hvacant, hchain, hturn, fun pre post houts hspawned => ?_⟩
  rcases List.eq_nil_or_concat post with rfl | ⟨post, last, rfl⟩
  · -- the flag is set in this step
    obtain ⟨-, hout⟩ := List.append_inj' houts rfl
    cases hout
    refine ⟨quiet_of_flagged hs, ?_⟩
    rw [List.count_nil, Nat.zero_add]
    cases t.mem.worker with
    | call => exact le_rfl
    | _ => exact Nat.zero_le 1
  · rw [List.concat_eq_append] at houts hspawned ⊢
    have hsplit : outs ++ [out] = (pre ++ .flagged :: post) ++ [last] := by simpa using houts
    obtain ⟨hpast, hout⟩ := List.append_inj' hsplit rfl
    cases hout
    obtain ⟨hquiet, hcount⟩ := h.flagged pre post hpast fun hmem =>
      hspawned (List.mem_append_left _ hmem)
    obtain ⟨hquiet', hstep⟩ := quiet_step h.vacant hquiet hs fun hout =>
      hspawned (List.mem_append_right _ (hout ▸ List.mem_singleton_self _))
    refine ⟨hquiet', ?_⟩
    rw [List.count_append]
    omega

/-- **The callback is called in turn**: in every run each thread is created after the one before it
has ended, its callback is called only when it is in no call and has returned 0 before, nothing is
called after its end; and once the flag is set it is called at most once more. -/
theorem calls_in_turn {ops : List (ThreadOp ω)} {outs : List ThreadOut}
    (hrun : run (threadStep cb app) (.start shared) ops = some (s, outs)) :
    (.ended :: events outs).IsChain Follows ∧
      ∀ pre post, outs = pre ++ .flagged :: post → .spawned ∉ post → post.count .called ≤ 1 := by
  have hstart : InTurn [] (.start shared : ThreadSystem σ π) :=
    ⟨⟨fun _ => rfl, fun _ => rfl⟩, .singleton _, rfl, fun pre post houts => by simp at houts⟩
  have hend : InTurn ([] ++ outs) s := run_history InTurn
    (fun _ _ _ _ _ h (_ : True) hs => h.step hs) hstart (fun _ _ => trivial) hrun
  refine ⟨hend.chain, fun pre post houts hspawned => ?_⟩
  exact (Nat.le_add_right _ _).trans (hend.flagged pre post houts hspawned).2

/-- A callback that returns 0 twice, and then 1. -/
def twiceCb : ThreadLoopCb ℕ Unit where
  entry := ()
  step calls _ := some (calls + 1, .inr (if calls < 2 then 0 else 1))
  cancelPoint _ := .none

/-- The flag is set while the callback is called for the third time. -/
def twiceOps : List (ThreadOp Empty) :=
  [.create, .owner true, .owner true, .owner true] ++ List.replicate 10 .worker ++
    [.destroy, .owner true, .worker, .worker, .owner true, .worker, .owner true, .worker]

theorem calls_in_turn_twice :
    ∃ s outs, run (threadStep twiceCb fun calls _ => some calls) (.start 0) twiceOps =
        some (s, outs) ∧ (.ended :: events outs).IsChain Follows ∧
      ∀ pre post, outs = pre ++ .flagged :: post → .spawned ∉ post → post.count .called ≤ 1 := by
  have hsome : (run (threadStep twiceCb fun calls _ => some calls) (.start 0) twiceOps).isSome := by
    decide +kernel
  obtain ⟨⟨s, outs⟩, hrun⟩ := Option.isSome_iff_exists.mp hsome
  exact ⟨s, outs, hrun, calls_in_turn hrun⟩

end HyUtils.Thread
