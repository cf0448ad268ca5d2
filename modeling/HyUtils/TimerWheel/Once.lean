import HyUtils.TimerWheel.Fate

/-!
# What one tick examines

A repeat timer whose delay is a multiple of the number of slots is put back on the list that is
being walked. When other timers follow it the walk comes to it again in the same tick, and a timer
of delay 0 can keep the walk going for ever; when it is the last, the saved successor is the head
already and the walk ends.

## Main definitions

* `examine`: one round of the walk, with the timer it examines
* `ExaminesOnce`: the walk of a tick ends, and examines each timer of the list once
* `LastRequeues`: only the last timer of a list is put back on it

## Main results

* `examines_in_order`: under `LastRequeues` the walk examines the list as it was
* `examinesOnce_iff`: `LastRequeues` is exactly the condition
-/

namespace HyUtils.TimerWheel

open Runs SavedSuccessor

variable {context context' : TimerContext} {walk walk' : Walk} {q rest : List Addr} {a : Addr}
  {timer : Timer}

/-- One round of the walk, with the timer it examines. -/
def examine (walk : Walk) (script : List CallbackOp) : Option (Walk × List Addr) :=
  (walkStep walk script).map fun r => (r.1, walk.pos.toList)

/-- The walk of a tick ends, and examines each timer of the current slot exactly once. -/
def ExaminesOnce (context : TimerContext) : Prop :=
  ∃ fuel walk walk' seen, startWalk context = .ok walk ∧
    run examine walk (List.replicate fuel []) = some (walk', seen) ∧ walk'.pos.isNone ∧
    ∀ a ∈ context.listHead context.curSlot, seen.flatten.count a = 1

/-- Of the timers `q`, only the last is put back on the slot it is taken from. -/
def LastRequeues (context : TimerContext) (q : List Addr) : Prop :=
  ∀ a ∈ q.dropLast, requeues context a = false

instance (context : TimerContext) (q : List Addr) : Decidable (LastRequeues context q) :=
  inferInstanceAs (Decidable (∀ _ ∈ _, _))

/-! ## One round -/

theorem examine_of_iter {script : List CallbackOp} {calls : List Addr}
    (h : iter script walk = .ok (walk', calls)) :
    examine walk script = some (walk', walk.pos.toList) := by
  rw [examine, walkStep_of_iter h]
  rfl

theorem requeues_congr {b : Addr} (hslot : context'.slotNum = context.slotNum)
    (hheap : context'.heap b = context.heap b) : requeues context' b = requeues context b := by
  rw [requeues, requeues, hheap, hslot]

/-- What is left to visit after the timer at the front of the walk. -/
def remainder (context : TimerContext) (a : Addr) (rest : List Addr) : List Addr :=
  toVisit rest (if requeues context a then [a] else [])

/-- **A round examines the first timer**, and may put it back behind the others. -/
theorem examine_cons (h : Walking walk (a :: rest)) :
    ∃ walk', examine walk [] = some (walk', [a]) ∧
      Walking walk' (remainder walk.context a rest) ∧
      ∀ b ≠ a, requeues walk'.context b = requeues walk.context b := by
  obtain ⟨timer, ht⟩ := h.live List.mem_cons_self
  have hpos : walk.pos.toList = [a] := by rw [h.pos]; rfl
  rw [remainder, requeues_of_heap ht]
  rcases Nat.eq_zero_or_pos timer.rotation with hrot | hrot
  · obtain ⟨walk', hi, hw, hc⟩ := iter_fire_nil h ht hrot
    refine ⟨walk', hpos ▸ examine_of_iter hi, ?_, fun b hb => ?_⟩
    · rw [hrot, beq_self_eq_true, Bool.true_and]
      exact hw
    · rw [hc]
      exact requeues_congr fire_slotNum (fire_heap_of_ne hb)
  · obtain ⟨walk', hi, hw, hc⟩ := iter_wait h ht hrot []
    refine ⟨walk', hpos ▸ examine_of_iter hi, ?_, fun b hb => ?_⟩
    · rw [beq_false_of_ne hrot.ne', Bool.false_and, if_neg Bool.false_ne_true, toVisit_nil_right]
      exact hw
    · rw [hc]
      exact requeues_congr rfl (store_heap_of_ne _ _ hb)

theorem lastRequeues_congr (hreq : ∀ b ∈ q, requeues context' b = requeues context b) :
    LastRequeues context' q ↔ LastRequeues context q := by
  refine forall₂_congr fun b hb => ?_
  rw [hreq b (List.dropLast_subset q hb)]

theorem lastRequeues_cons : LastRequeues context (a :: rest) ↔
    (rest ≠ [] → requeues context a = false) ∧ LastRequeues context rest := by
  cases rest with
  | nil => simp [LastRequeues]
  | cons b rest => simp [LastRequeues]

/-- A timer that is put back behind no other is not visited again. -/
theorem remainder_eq (h : rest ≠ [] → requeues context a = false) :
    remainder context a rest = rest := by
  rw [remainder]
  by_cases hrest : rest = []
  · rw [hrest, toVisit_nil]
  · rw [h hrest, if_neg Bool.false_ne_true, toVisit_nil_right]

/-! ## Whole walks -/

/-- **The walk examines the list as it was**, one timer a round, when only the last timer is put
back on it. -/
theorem examines_in_order (h : Walking walk q) (hlast : LastRequeues walk.context q) :
    ∃ walk' seen, run examine walk (List.replicate q.length []) = some (walk', seen) ∧
      walk'.pos.isNone ∧ seen.flatten = q := by
  induction q generalizing walk with
  | nil => exact ⟨walk, [], rfl, by rw [h.pos]; rfl, rfl⟩
  | cons a rest ih =>
    obtain ⟨hself, hrest⟩ := lastRequeues_cons.mp hlast
    obtain ⟨walk₁, hs, hw, hreq⟩ := examine_cons h
    rw [remainder_eq hself] at hw
    -- the timers that follow are as they were
    have hna := (List.nodup_cons.mp h.nodup).1
    have hrest' := (lastRequeues_congr fun b hb => hreq b (ne_of_mem_of_not_mem hb hna)).mpr hrest
    obtain ⟨walk', seen, hrun, hend, hseen⟩ := ih hw hrest'
    refine ⟨walk', [a] :: seen, run_cons_eq_some.mpr ⟨walk₁, _, seen, hs, hrun, rfl⟩, hend, ?_⟩
    rw [List.flatten_cons, hseen, List.singleton_append]

/-- A walk that ends has examined all timers it was in front of. -/
theorem mem_of_examined {fuel : ℕ} {seen : List (List Addr)} (h : Walking walk q)
    (hrun : run examine walk (List.replicate fuel []) = some (walk', seen))
    (hend : walk'.pos.isNone) : q ⊆ seen.flatten := by
  induction fuel generalizing walk q seen with
  | zero =>
    obtain ⟨rfl, rfl⟩ : walk = walk' ∧ seen = [] := by simpa [eq_comm] using hrun
    rw [h.pos, Option.isNone_iff_eq_none, List.head?_eq_none_iff] at hend
    rw [hend]
    exact List.nil_subset _
  | succ fuel ih =>
    obtain ⟨walk₁, seen₁, seen', hs, hrun', rfl⟩ := run_cons_eq_some.mp hrun
    cases q with
    | nil => exact List.nil_subset _
    | cons a rest =>
      obtain ⟨w, hs', hw, -⟩ := examine_cons h
      obtain ⟨rfl, rfl⟩ := Prod.mk.inj (Option.some.inj (hs'.symm.trans hs))
      -- the others are still in front of the walk after the round
      have hsub : rest ⊆ seen'.flatten := fun b hb => ih hw hrun' (mem_toVisit_left hb _)
      rw [List.flatten_cons, List.singleton_append]
      exact List.cons_subset_cons a hsub

/-- **A walk that examines each timer once** puts none but the last back on the list. -/
theorem lastRequeues_of_examined {fuel : ℕ} {seen : List (List Addr)} (h : Walking walk q)
    (hrun : run examine walk (List.replicate fuel []) = some (walk', seen))
    (hend : walk'.pos.isNone) (honce : ∀ a ∈ q, seen.flatten.count a = 1) :
    LastRequeues walk.context q := by
  induction fuel generalizing walk q seen with
  | zero =>
    obtain ⟨rfl, rfl⟩ : walk = walk' ∧ seen = [] := by simpa [eq_comm] using hrun
    rw [h.pos, Option.isNone_iff_eq_none, List.head?_eq_none_iff] at hend
    rw [hend]
    exact fun _ hb => absurd hb List.not_mem_nil
  | succ fuel ih =>
    obtain ⟨walk₁, seen₁, seen', hs, hrun', rfl⟩ := run_cons_eq_some.mp hrun
    cases q with
    | nil => exact fun _ hb => absurd hb List.not_mem_nil
    | cons a rest =>
      obtain ⟨w, hs', hw, hreq⟩ := examine_cons h
      obtain ⟨rfl, rfl⟩ := Prod.mk.inj (Option.some.inj (hs'.symm.trans hs))
      rw [List.flatten_cons, List.singleton_append] at honce
      have hna := (List.nodup_cons.mp h.nodup).1
      -- put back behind another timer, `a` would be examined once more
      have hself : rest ≠ [] → requeues walk.context a = false := by
        intro hne
        by_contra hr
        rw [Bool.not_eq_false] at hr
        have hmem : a ∈ seen'.flatten := by
          apply mem_of_examined hw hrun' hend
          rw [remainder, hr, if_pos rfl, toVisit_of_ne hne]
          exact List.mem_append_right _ (List.mem_singleton_self a)
        have hone := honce a List.mem_cons_self
        rw [List.count_cons_self] at hone
        exact absurd (List.count_pos_iff.mpr hmem) (by omega)
      rw [remainder_eq hself] at hw
      have honce' : ∀ b ∈ rest, seen'.flatten.count b = 1 := by
        intro b hb
        have hne := ne_of_mem_of_not_mem hb hna
        rw [← honce b (List.mem_cons_of_mem _ hb), List.count_cons_of_ne hne.symm]
      have hrest := ih hw hrun' honce'
      rw [lastRequeues_congr fun b hb => hreq b (ne_of_mem_of_not_mem hb hna)] at hrest
      exact lastRequeues_cons.mpr ⟨hself, hrest⟩

/-! ## The walk of a tick -/

theorem ExaminesOnce.lastRequeues (hwf : context.Wf) (hfree : context.mutex = false)
    (h : ExaminesOnce context) : LastRequeues context (context.listHead context.curSlot) := by
  obtain ⟨fuel, walk, walk', seen, hstart, hrun, hend, honce⟩ := h
  obtain ⟨w, hstart', rfl, hw⟩ := startWalk_spec hwf hfree
  obtain rfl := Except.ok.inj (hstart'.symm.trans hstart)
  exact lastRequeues_of_examined hw hrun hend honce

theorem LastRequeues.examinesOnce (hwf : context.Wf) (hfree : context.mutex = false)
    (h : LastRequeues context (context.listHead context.curSlot)) : ExaminesOnce context := by
  obtain ⟨walk, hstart, rfl, hw⟩ := startWalk_spec hwf hfree
  obtain ⟨walk', seen, hrun, hend, hseen⟩ := examines_in_order hw h
  refine ⟨_, walk, walk', seen, hstart, hrun, hend, fun a ha => ?_⟩
  rw [hseen]
  exact List.count_eq_one_of_mem hw.nodup ha

/-- **The walk of a tick ends and examines each timer once** exactly when no timer of the list but
the last is due with a delay that puts it back on the list. -/
theorem examinesOnce_iff (hwf : context.Wf) (hfree : context.mutex = false) :
    ExaminesOnce context ↔ LastRequeues context (context.listHead context.curSlot) :=
  ⟨ExaminesOnce.lastRequeues hwf hfree, LastRequeues.examinesOnce hwf hfree⟩

/-- On a wheel of 3 slots, with a single shot on the current slot. -/
theorem examinesOnce_iff_single_shot :
    ∃ context outs, (hyTimerCreate 3 true true).bind (fun context =>
        run timerStep context [.add ⟨0, 0, some 0, 0⟩ (some 100)]) = some (context, outs) ∧
      (ExaminesOnce context ↔ LastRequeues context (context.listHead context.curSlot)) := by
  refine ⟨_, _, rfl, ?_⟩
  have hidle := run_timerStep_idle (by decide) (show hyTimerCreate 3 true true = some _ from rfl)
    (show run timerStep _ [.add ⟨0, 0, some 0, 0⟩ (some 100)] = some (_, _) from rfl)
  exact examinesOnce_iff hidle.1 hidle.2.1

/-- Two repeat timers of 2 ticks on a wheel of 2 slots: when they are due, each is put back behind
the other, and the walk comes to both again. -/
theorem examined_again :
    ∃ context outs, (hyTimerCreate 2 true true).bind (fun context =>
        run timerStep context [.add ⟨2, 1, some 0, 0⟩ (some 100), .add ⟨2, 1, some 0, 0⟩ (some 101),
          .tick 2, .tick 0]) = some (context, outs) ∧
      ¬ ExaminesOnce context := by
  refine ⟨_, _, rfl, fun h => ?_⟩
  have hidle := run_timerStep_idle (by decide) (show hyTimerCreate 2 true true = some _ from rfl)
    (show run timerStep _ [.add ⟨2, 1, some 0, 0⟩ (some 100), .add ⟨2, 1, some 0, 0⟩ (some 101),
      .tick 2, .tick 0] = some (_, _) from rfl)
  have hlast := h.lastRequeues hidle.1 hidle.2.1
  exact absurd hlast (by decide)

end HyUtils.TimerWheel
