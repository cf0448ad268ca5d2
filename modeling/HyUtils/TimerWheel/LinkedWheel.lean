import HyUtils.TimerWheel.Linked

/-!
# Runs of the timer wheel with its pointers

## Main definitions

* `Follows w q`: the loop variables are in front of the timers `q`

## Main results

* `Follows.iter`: one round of the loop follows the cells as the walk follows the list
* `pointers_refine_lists`: in every run the pointers do what is done to the lists
* `destroy_frees_all`: `HyTimerDestroy` frees everything once
-/

namespace HyUtils.TimerWheel

open Rings HyList Runs SavedSuccessor Filter
open PointerContext (PointerWalk)

variable {context context' : TimerContext} {p p' : PointerContext} {a b : Addr} {i slot : ℕ}
  {timer : Timer} {script : List CallbackOp} {walk walk' : Walk} {q rest : List Addr}

/-! ## Callbacks -/

theorem Models.runCallback (h : Models p context) (hwf : context.Wf)
    (hrun : runCallback context script = .ok context') :
    ∃ p', (∀ᶠ fuel in atTop, PointerContext.runCallback fuel p script = some p') ∧
      Models p' context' := by
  induction script generalizing context p with
  | nil =>
    cases hrun
    exact ⟨p, .of_forall fun _ => rfl, h⟩
  | cons op script ih =>
    cases op with
    | add timerConfig ptr =>
      obtain ⟨p₁, hadd, h₁⟩ := h.hyTimerAdd hwf timerConfig ptr
      obtain ⟨p', hscript, h'⟩ := ih h₁ (hyTimerAdd_wf hwf timerConfig ptr) hrun
      refine ⟨p', ?_, h'⟩
      filter_upwards [hscript] with fuel hfuel
      rw [PointerContext.runCallback, hadd]
      exact hfuel
    | del timerHandle =>
      obtain ⟨⟨context₁, handle⟩, hdel, hrun⟩ := bind_eq_ok.mp hrun
      obtain ⟨p₁, hdel', h₁, hwf₁⟩ := h.hyTimerDel hwf hdel
      obtain ⟨p', hscript, h'⟩ := ih h₁ hwf₁ hrun
      refine ⟨p', ?_, h'⟩
      filter_upwards [hdel', hscript] with fuel hfuel hfuel'
      rw [PointerContext.runCallback, hfuel]
      exact hfuel'

theorem Models.invoke (h : Models p context) (hwf : context.Wf) (hfree : context.mutex = false)
    (hinvoke : invoke script context timer = .ok context') :
    ∃ p', (∀ᶠ fuel in atTop, PointerContext.invoke fuel script p timer = some p') ∧
      Models p' context' := by
  have hlock : p.lock = some { p with mutex := true } := by
    rw [PointerContext.lock, h.mutex, hfree]
    rfl
  have h₁ : Models { p with mutex := true } { context with mutex := true } := h.setMutex true
  rw [invoke_eq hfree] at hinvoke
  cases hcb : timer.timerConfig.timerCb.isSome with
  | false =>
    rw [hcb] at hinvoke
    cases hinvoke
    refine ⟨_, .of_forall fun fuel => ?_, h₁.setMutex false⟩
    rw [PointerContext.invoke, hlock, hcb]
    rfl
  | true =>
    rw [hcb, if_pos rfl] at hinvoke
    cases hscript : TimerWheel.runCallback { context with mutex := true } script with
    | error fault =>
      rw [hscript] at hinvoke
      cases hinvoke
    | ok context₂ =>
      rw [hscript] at hinvoke
      cases hinvoke
      obtain ⟨p₂, hrun, h₂⟩ := h₁.runCallback (hwf.setMutex true) hscript
      refine ⟨p₂.unlock, ?_, h₂.setMutex false⟩
      filter_upwards [hrun] with fuel hfuel
      rw [PointerContext.invoke, hlock, hcb]
      simp only [Option.bind_eq_bind, Option.bind_some, if_true, hfuel]
      rfl

/-- What follows the callback: the timer is taken off its list, and put back on one or freed. -/
theorem Models.fire (h : Models p context) (hwf : context.Wf) (ht : context.heap a = some timer) :
    ∃ p', p.fire (.timer a) = some p' ∧ Models p' (fire context a timer) := by
  have hlive : (context.heap a).isSome := by rw [ht]; rfl
  obtain ⟨i, hmem⟩ := (hwf.live_iff a).mp hlive
  obtain ⟨p₁, hdel, h₁⟩ := h.listDel (hwf.slot_lt hmem) hmem
  have ht₁ : (context.listDel a).heap a = some timer := ht
  have hoff : ∀ j, a ∉ (context.listDel a).listHead j := fun j hj =>
    (hwf.nodup j).not_mem_erase hj
  rw [PointerContext.fire, hdel, Option.bind_eq_bind, Option.bind_some, h₁.timerAt ht₁]
  by_cases hrep : timer.timerConfig.repeatFlag = hyTimerModeRepeat
  · have hslot : (timer.timerConfig.expires % context.slotNum + context.curSlot) %
        context.slotNum < context.slotNum := Nat.mod_lt _ hwf.slotNum_pos
    obtain ⟨p', hadd, h'⟩ := (h₁.store hlive
      { timer with rotation := timer.timerConfig.expires / context.slotNum }).listAddTail
      (by simp) hoff hslot
    refine ⟨p', ?_, ?_⟩
    · simp only [Option.bind_eq_bind, Option.bind_some, hrep, if_true, h₁.slotNum, h₁.curSlot]
      exact hadd
    · rw [TimerWheel.fire, if_pos hrep]
      exact h'
  · refine ⟨p₁.free a, ?_, ?_⟩
    · simp only [Option.bind_eq_bind, Option.bind_some, hrep, if_false]
      rfl
    · rw [TimerWheel.fire, if_neg hrep]
      exact h₁.free hlive hoff

/-! ## The loop over a slot -/

/-- The loop variables are in front of the timers `q` of the current slot. -/
structure Follows (w : PointerWalk) (walk : Walk) (q : List Addr) : Prop where
  context : Models w.context walk.context
  pos : w.pos = nodeAt walk.context.curSlot q.head?
  n : q ≠ [] → w.n = nodeAt walk.context.curSlot q.tail.head?

/-- The loop moves on to the saved node. -/
theorem exists_follows {w : Walk} (h : Models p w.context) (hwf : w.context.Wf)
    (hsuf : q <:+ w.context.listHead w.context.curSlot) :
    ∃ n, p.cells.next (nodeAt w.context.curSlot q.head?) = some n ∧
      Follows ⟨p, nodeAt w.context.curSlot q.head?, n⟩ w q := by
  obtain ⟨pre, hpre⟩ := hsuf
  obtain ⟨n, hn, hnext⟩ := h.next_saved hwf.curSlot_lt hpre.symm
  exact ⟨n, hn, h, rfl, hnext⟩

theorem pointer_iter_eq {w : PointerWalk} {calls : List Addr} {n : Node} {fuel : ℕ}
    (hgo : w.pos ≠ w.context.listHead)
    (hvisit : PointerContext.visit fuel script w.context w.pos = some (p, calls))
    (hn : p.cells.next w.n = some n) :
    PointerContext.iter fuel w script = some (⟨p, w.n, n⟩, calls) := by
  rw [PointerContext.iter, if_neg hgo, hvisit]
  simp only [Option.bind_eq_bind, Option.bind_some, hn]
  rfl

/-- **One round** of the loop is one round of the walk. -/
theorem Follows.iter {w : PointerWalk} {calls : List Addr} (h : Follows w walk q)
    (hw : Walking walk q) (hi : iter script walk = .ok (walk', calls)) :
    ∃ w' q', (∀ᶠ fuel in atTop, PointerContext.iter fuel w script = some (w', calls)) ∧
      Walking walk' q' ∧ Follows w' walk' q' := by
  cases q with
  | nil =>
    rw [iter_nil hw] at hi
    cases hi
    refine ⟨w, [], .of_forall fun fuel => ?_, hw, h⟩
    rw [PointerContext.iter, if_pos]
    rw [h.pos, PointerContext.listHead, h.context.curSlot]
    rfl
  | cons a rest =>
    obtain ⟨timer, ht⟩ := hw.live List.mem_cons_self
    have hpos : w.pos = .timer a := h.pos
    have hgo : w.pos ≠ w.context.listHead := by simp [hpos, PointerContext.listHead]
    have hn : w.n = nodeAt walk.context.curSlot rest.head? := h.n (List.cons_ne_nil a rest)
    rcases Nat.eq_zero_or_pos timer.rotation with hrot | hrot
    · -- due: the callback completes, so it deletes no live timer
      have hsafe : RoundSafe walk script := by
        by_contra hsafe
        rw [iter_of_not_safe hw hsafe] at hi
        cases hi
      obtain ⟨context₁, hcb, hwf₁, hfree₁, hext, -⟩ :=
        invoke_of_safe hw.wf hw.unlocked (hsafe a timer hw.pos ht hrot)
      obtain ⟨new, hnew⟩ := hext.listHead walk.context.curSlot
      have ht₁ : context₁.heap a = some timer := by rw [hext.heap a (by rw [ht]; rfl), ht]
      obtain ⟨walk₁, hi₁, hw₁, hc₁⟩ :=
        iter_fire hw ht hrot hcb hwf₁ hfree₁ ht₁ (by rw [hext.curSlot, hnew])
      cases hi₁.symm.trans hi
      obtain ⟨p₁, hinvoke, h₁⟩ := h.context.invoke hw.wf hw.unlocked hcb
      obtain ⟨p₂, hfire, h₂⟩ := h₁.fire hwf₁ ht₁
      rw [← hc₁] at h₂
      obtain ⟨n, hnext, hfollows⟩ := exists_follows h₂ hw₁.wf hw₁.suffix
      have hcur : walk'.context.curSlot = walk.context.curSlot := by
        rw [hc₁, fire_curSlot, hext.curSlot]
      rw [head?_toVisit, hcur, ← hn] at hnext hfollows
      refine ⟨_, _, ?_, hw₁, hfollows⟩
      filter_upwards [hinvoke] with fuel hfuel
      refine pointer_iter_eq hgo ?_ hnext
      rw [PointerContext.visit, hpos, h.context.timerAt ht]
      simp only [Option.bind_eq_bind, Option.bind_some, hrot, gt_iff_lt, Nat.lt_irrefl, if_false,
        hfuel, hfire]
      rfl
    · obtain ⟨walk₁, hi₁, hw₁, hc₁⟩ := iter_wait hw ht hrot script
      cases hi₁.symm.trans hi
      have h₁ := h.context.store (a := a) (by rw [ht]; rfl)
        { timer with rotation := timer.rotation - 1 }
      rw [← hc₁] at h₁
      obtain ⟨n, hnext, hfollows⟩ := exists_follows h₁ hw₁.wf hw₁.suffix
      have hcur : walk'.context.curSlot = walk.context.curSlot := by rw [hc₁]; rfl
      rw [hcur, ← hn] at hnext hfollows
      refine ⟨_, _, .of_forall fun fuel => pointer_iter_eq hgo ?_ hnext, hw₁, hfollows⟩
      rw [PointerContext.visit, hpos, h.context.timerAt ht, Option.bind_eq_bind, Option.bind_some]
      exact if_pos hrot

/-! ## Ticks -/

theorem iter_of_walkStep {calls : List Addr} (h : walkStep walk script = some (walk', calls)) :
    iter script walk = .ok (walk', calls) := by
  rw [walkStep] at h
  cases hi : iter script walk with
  | error fault =>
    rw [hi] at h
    cases h
  | ok r =>
    rw [hi] at h
    cases h
    rfl

theorem Models.advance (h : Models p context) : Models p.advance (advance context) := by
  refine ⟨h.slotNum, ?_, h.mutex, h.heap, h.cells, h.unmapped⟩
  rw [PointerContext.advance, h.curSlot, h.slotNum]
  rfl

theorem Models.tick (h : Models p context) (hwf : context.Wf) (hfree : context.mutex = false)
    {scripts : List (List CallbackOp)} {calls : List Addr}
    (htick : tick context scripts = some (context', calls)) :
    ∃ p', (∀ᶠ fuel in atTop, PointerContext.tick fuel p scripts = some (p', calls)) ∧
      Models p' context' ∧ context'.Wf ∧ context'.mutex = false := by
  obtain ⟨walk, walk', calls', hstart, hrun, hend, rfl, rfl⟩ := tick_eq_some_iff.mp htick
  obtain ⟨walk₁, hstart₁, rfl, hw⟩ := startWalk_spec hwf hfree
  cases hstart₁.symm.trans hstart
  obtain ⟨n, hnext, hfollows⟩ := exists_follows h hwf List.suffix_rfl
  have hfirst : p.cells.next p.listHead =
      some (nodeAt walk.context.curSlot (walk.context.listHead walk.context.curSlot).head?) := by
    rw [PointerContext.listHead, h.curSlot]
    exact h.next_slot hwf.curSlot_lt
  -- the rounds
  have hround : ∀ (walk : Walk) (w : PointerWalk) (script : List CallbackOp) (walk' : Walk)
      (calls : List Addr), (∃ q, Walking walk q ∧ Follows w walk q) →
      walkStep walk script = some (walk', calls) →
      ∃ w', (∀ᶠ fuel in atTop, PointerContext.iter fuel w script = some (w', calls)) ∧
        ∃ q, Walking walk' q ∧ Follows w' walk' q := by
    rintro walk w script walk' calls ⟨q, hw, hf⟩ hs
    obtain ⟨w', q', hi, hw', hf'⟩ := hf.iter hw (iter_of_walkStep hs)
    exact ⟨w', hi, q', hw', hf'⟩
  obtain ⟨w', hrun', q', hw', hfollows'⟩ :=
    run_simulation_eventually _ hround ⟨_, hw, hfollows⟩ hrun
  -- the loop ends at the head
  have hq : q' = [] := by
    rw [hw'.pos, Option.isNone_iff_eq_none, List.head?_eq_none_iff] at hend
    exact hend
  subst hq
  refine ⟨w'.context.advance, ?_, hfollows'.context.advance, advance_wf hw'.wf, hw'.unlocked⟩
  filter_upwards [hrun'] with fuel hfuel
  rw [PointerContext.tick, PointerContext.startWalk, hfirst]
  simp only [Option.bind_eq_bind, Option.bind_some, hnext, hfuel, Option.pure_def]
  refine if_pos ?_
  rw [hfollows'.pos, PointerContext.listHead, hfollows'.context.curSlot]
  rfl

/-! ## Runs -/

/-- The pointers hold the slot lists of a wheel between two calls. -/
structure Holds (context : TimerContext) (p : PointerContext) : Prop where
  models : Models p context
  wf : context.Wf
  unlocked : context.mutex = false

/-- **One step** of the pointers is one step of the lists. -/
theorem Holds.step (h : Holds context p) {op : WheelOp} {out : TimerOut}
    (hs : wheelStep context op = some (context', out)) :
    ∃ p', (∀ᶠ fuel in atTop, PointerContext.step fuel p op = some (p', out)) ∧
      Holds context' p' := by
  cases op with
  | add timerConfig ptr =>
    cases hs
    obtain ⟨p', hadd, h'⟩ := h.models.hyTimerAdd h.wf timerConfig ptr
    refine ⟨p', .of_forall fun fuel => ?_, h', hyTimerAdd_wf h.wf timerConfig ptr,
      (hyTimerAdd_same timerConfig ptr).2.2.trans h.unlocked⟩
    rw [PointerContext.step, hadd]
    rfl
  | del timerHandle =>
    rw [wheelStep] at hs
    cases hdel : hyTimerDel context timerHandle with
    | error fault =>
      rw [hdel] at hs
      cases hs
    | ok r =>
      rw [hdel] at hs
      cases hs
      obtain ⟨p', hdel', h', hwf'⟩ := h.models.hyTimerDel h.wf hdel
      refine ⟨p', ?_, h', hwf', ?_⟩
      · filter_upwards [hdel'] with fuel hfuel
        rw [PointerContext.step, hfuel]
        rfl
      · rcases hyTimerDel_cases h.wf h.unlocked timerHandle with ⟨-, hsame⟩ | ⟨a, -, -, hgone⟩
        · cases hsame.symm.trans hdel
          exact h.unlocked
        · cases hgone.symm.trans hdel
          exact h.unlocked
  | tick scripts =>
    obtain ⟨⟨context₁, calls⟩, htick, hout⟩ := Option.map_eq_some_iff.mp hs
    cases hout
    obtain ⟨p', htick', h', hwf', hfree'⟩ := h.models.tick h.wf h.unlocked htick
    refine ⟨p', ?_, h', hwf', hfree'⟩
    filter_upwards [htick'] with fuel hfuel
    rw [PointerContext.step, hfuel]
    rfl

section Create

/-- The heads, once each is made that of an empty list. -/
theorem entries_foldl_init (slots : List ℕ) (A : ListTable Node) :
    (slots.foldl (fun A i => A.init (.slot i)) A).live = A.live ∧
      ∀ h, (slots.foldl (fun A i => A.init (.slot i)) A).entries h =
        if h ∈ slots.map Node.slot then some [] else A.entries h := by
  induction slots generalizing A with
  | nil => exact ⟨rfl, fun h => (if_neg List.not_mem_nil).symm⟩
  | cons i slots ih =>
    obtain ⟨hlive, hentries⟩ := ih (A.init (.slot i))
    refine ⟨hlive, fun h => ?_⟩
    rw [List.foldl_cons, hentries, List.map_cons]
    by_cases hmem : h ∈ slots.map Node.slot
    · rw [if_pos hmem, if_pos (List.mem_cons_of_mem _ hmem)]
    · by_cases hi : h = .slot i
      · subst hi
        rw [if_neg hmem, if_pos List.mem_cons_self]
        exact Function.update_self ..
      · rw [if_neg hmem, if_neg fun hh => (List.mem_cons.mp hh).elim hi hmem]
        exact Function.update_of_ne hi _ _

theorem foldlM_initListHead {m : Cells Node} {A : ListTable Node} (slots : List ℕ)
    (hrep : Represents m A) (hslots : ∀ i ∈ slots, A.NoEntry (.slot i)) :
    ∃ m', slots.foldlM (fun m i => initListHead m (.slot i)) m = some m' ∧
      Represents m' (slots.foldl (fun A i => A.init (.slot i)) A) := by
  induction slots generalizing m A with
  | nil => exact ⟨m, rfl, hrep⟩
  | cons i slots ih =>
    obtain ⟨hi, hslots⟩ := List.forall_mem_cons.mp hslots
    obtain ⟨m₁, hinit, hrep₁⟩ := hrep.init hi
    -- a head that is made empty has no entries
    have hslots₁ : ∀ j ∈ slots, (A.init (.slot i)).NoEntry (.slot j) := by
      refine fun j hj => ⟨(hslots j hj).1, fun h xs hh => ?_⟩
      by_cases hhi : h = .slot i
      · subst hhi
        obtain rfl : [] = xs := by simpa [ListTable.init] using hh
        exact List.not_mem_nil
      · exact (hslots j hj).2 h xs (by simpa [ListTable.init, hhi] using hh)
    obtain ⟨m', hrest, hrep'⟩ := ih hrep₁ hslots₁
    exact ⟨m', by rw [List.foldlM_cons, hinit]; exact hrest, hrep'⟩

theorem mapped_foldl_alloc (slots : List ℕ) (m : Cells Node) {i : ℕ}
    (h : Mapped m (.slot i) ∨ i ∈ slots) :
    Mapped (slots.foldl (fun m i => alloc m (.slot i) .null .null) m) (.slot i) := by
  induction slots generalizing m with
  | nil => exact h.resolve_right List.not_mem_nil
  | cons j slots ih =>
    refine ih _ ?_
    by_cases hij : i = j
    · subst hij
      exact .inl ⟨by simp [alloc], by simp [alloc]⟩
    · refine h.imp (fun h => ?_) fun h => List.mem_of_ne_of_mem hij h
      have hne : Node.slot i ≠ .slot j := fun heq => hij (Node.slot.inj heq)
      exact ⟨by simpa [alloc, hne] using h.1, by simpa [alloc, hne] using h.2⟩

theorem unmapped_foldl_alloc (slots : List ℕ) {m : Cells Node} {node : Node}
    (h : Unmapped m node) (hnot : node ∉ slots.map Node.slot) :
    Unmapped (slots.foldl (fun m i => alloc m (.slot i) .null .null) m) node := by
  induction slots generalizing m with
  | nil => exact h
  | cons i slots ih =>
    rw [List.map_cons, List.mem_cons, not_or] at hnot
    exact ih (unmapped_alloc h hnot.1 _ _) hnot.2

theorem unmapped_foldlM_initListHead {slots : List ℕ} {m m' : Cells Node} {node : Node}
    (hrun : slots.foldlM (fun m i => initListHead m (.slot i)) m = some m')
    (h : Unmapped m node) : Unmapped m' node := by
  induction slots generalizing m with
  | nil =>
    cases hrun
    exact h
  | cons i slots ih =>
    obtain ⟨m₁, hinit, hrest⟩ := Option.bind_eq_some_iff.mp hrun
    exact ih hrest (unmapped_initListHead hinit h)

/-- A new wheel has empty lists. -/
theorem hyTimerCreate_holds {slotNum : ℕ} {contextOk listOk : Bool} (hslot : 1 ≤ slotNum)
    (hcreate : hyTimerCreate slotNum contextOk listOk = some context) :
    ∃ p, PointerContext.hyTimerCreate slotNum contextOk listOk = some p ∧ Holds context p := by
  obtain ⟨hwf, hfree, -, -⟩ := hyTimerCreate_wf hslot hcreate
  rw [hyTimerCreate] at hcreate
  split_ifs at hcreate with hok
  cases hcreate
  -- the array of heads, before its loop and after it
  have hmapped : Represents ((List.range slotNum).foldl
      (fun m i => alloc m (.slot i) .null .null) ⟨fun _ => none, fun _ => none⟩)
      ⟨fun node => node ∈ (List.range slotNum).map Node.slot, fun _ => none⟩ := by
    refine ⟨fun node hnode => ?_, by simp, by simp, by simp⟩
    obtain ⟨i, hi, rfl⟩ := List.mem_map.mp (of_decide_eq_true hnode)
    exact mapped_foldl_alloc _ _ (.inr hi)
  obtain ⟨cells, hcells, hrep⟩ := foldlM_initListHead (List.range slotNum) hmapped fun i hi =>
    ⟨decide_eq_true (List.mem_map_of_mem hi), by simp⟩
  refine ⟨⟨slotNum, 0, false, cells, fun _ => none⟩, ?_,
    ⟨rfl, rfl, rfl, rfl, ?_, fun node hnode => ?_⟩, hwf, hfree⟩
  · rw [PointerContext.hyTimerCreate, if_pos hok]
    exact congrArg (Option.bind · _) hcells
  · obtain ⟨hlive, hentries⟩ := entries_foldl_init (List.range slotNum)
      ⟨fun node => node ∈ (List.range slotNum).map Node.slot, fun _ => none⟩
    convert hrep using 1
    refine ListTable.ext (funext fun h => ?_) (funext fun h => ?_)
    · rw [hlive]
      cases h <;> simp [TimerContext.lists]
    · rw [hentries]
      cases h <;> simp [TimerContext.lists]
  · refine unmapped_foldlM_initListHead hcells (unmapped_foldl_alloc _ ⟨rfl, rfl⟩ ?_)
    intro hmem
    obtain ⟨i, hi, rfl⟩ := List.mem_map.mp hmem
    exact absurd (List.mem_range.mp hi) (of_decide_eq_false hnode)

end Create

/-- Runs of the pointers are runs of the lists. -/
theorem run_holds {slotNum : ℕ} {contextOk listOk : Bool} {context₀ : TimerContext}
    {ops : List WheelOp} {outs : List TimerOut} (hslot : 1 ≤ slotNum)
    (hcreate : hyTimerCreate slotNum contextOk listOk = some context₀)
    (hrun : run wheelStep context₀ ops = some (context, outs)) :
    ∃ p₀ p, PointerContext.hyTimerCreate slotNum contextOk listOk = some p₀ ∧
      (∀ᶠ fuel in atTop, run (PointerContext.step fuel) p₀ ops = some (p, outs)) ∧
      Holds context p := by
  obtain ⟨p₀, hp₀, h₀⟩ := hyTimerCreate_holds hslot hcreate
  have hstep : ∀ (context : TimerContext) (p : PointerContext) (op : WheelOp)
      (context' : TimerContext) (out : TimerOut), Holds context p →
      wheelStep context op = some (context', out) →
      ∃ p', (∀ᶠ fuel in atTop, PointerContext.step fuel p op = some (p', out)) ∧
        Holds context' p' := fun _ _ _ _ _ h hs => h.step hs
  obtain ⟨p, hrun', h⟩ := run_simulation_eventually _ hstep h₀ hrun
  exact ⟨p₀, p, hp₀, hrun', h⟩

/-- **The pointers do what is done to the lists**: in every run of additions, deletions and ticks,
whose callbacks may call the module too, no node that is not there is used, each call shows what it
shows of the lists, and at the end the pointers hold them. -/
theorem pointers_refine_lists {slotNum : ℕ} {contextOk listOk : Bool} {context₀ : TimerContext}
    {ops : List WheelOp} {outs : List TimerOut} (hslot : 1 ≤ slotNum)
    (hcreate : hyTimerCreate slotNum contextOk listOk = some context₀)
    (hrun : run wheelStep context₀ ops = some (context, outs)) :
    ∃ p₀ p, PointerContext.hyTimerCreate slotNum contextOk listOk = some p₀ ∧
      (∀ᶠ fuel in atTop, run (PointerContext.step fuel) p₀ ops = some (p, outs)) ∧
      Models p context := by
  obtain ⟨p₀, p, hp₀, hrun', h⟩ := run_holds hslot hcreate hrun
  exact ⟨p₀, p, hp₀, hrun', h.models⟩

/-- A repeat timer whose callback adds a single shot, which is deleted before it is due. -/
def wheelOps : List WheelOp :=
  [.add ⟨2, 1, some 0, 0⟩ (some 100), .add ⟨0, 0, none, 0⟩ (some 101), .tick [[], []], .tick [],
    .tick [[.add ⟨1, 0, some 1, 0⟩ (some 101)]], .del (some 101), .tick []]

theorem pointers_refine_lists_two_slots :
    ∃ context outs p₀ p, run wheelStep ⟨2, 0, false, fun _ => [], fun _ => none⟩ wheelOps =
        some (context, outs) ∧
      PointerContext.hyTimerCreate 2 true true = some p₀ ∧
      (∀ᶠ fuel in atTop, run (PointerContext.step fuel) p₀ wheelOps = some (p, outs)) ∧
      Models p context := by
  have hsome : (run wheelStep ⟨2, 0, false, fun _ => [], fun _ => none⟩ wheelOps).isSome := rfl
  obtain ⟨⟨context, outs⟩, hrun⟩ := Option.isSome_iff_exists.mp hsome
  obtain ⟨p₀, p, h⟩ :=
    pointers_refine_lists (by decide) (show hyTimerCreate 2 true true = _ from rfl) hrun
  exact ⟨context, outs, p₀, p, hrun, h⟩

/-! ## The end of the module -/

section Destroy

/-- The wheel once the timers at `done` are taken off their lists and freed. -/
def TimerContext.without (context : TimerContext) (done : List Addr) : TimerContext :=
  done.foldl (fun context a => (context.listDel a).free a) context

theorem TimerContext.Wf.without (hwf : context.Wf) (done : List Addr) :
    (context.without done).Wf := by
  induction done generalizing context with
  | nil => exact hwf
  | cons a done ih => exact ih (hwf.remove a)

@[simp] theorem without_slotNum (done : List Addr) :
    (context.without done).slotNum = context.slotNum := by
  induction done generalizing context with
  | nil => rfl
  | cons a done ih => exact ih

@[simp] theorem without_mutex (done : List Addr) :
    (context.without done).mutex = context.mutex := by
  induction done generalizing context with
  | nil => rfl
  | cons a done ih => exact ih

theorem without_append (done done' : List Addr) :
    context.without (done ++ done') = (context.without done).without done' :=
  List.foldl_append

theorem without_heap (done : List Addr) (a : Addr) :
    (context.without done).heap a = if a ∈ done then none else context.heap a := by
  induction done generalizing context with
  | nil => exact (if_neg List.not_mem_nil).symm
  | cons b done ih =>
    rw [TimerContext.without, List.foldl_cons]
    refine ih.trans ?_
    by_cases hmem : a ∈ done
    · rw [if_pos hmem, if_pos (List.mem_cons_of_mem _ hmem)]
    · by_cases hab : a = b
      · subst hab
        rw [if_neg hmem, if_pos List.mem_cons_self, free_heap_self]
      · rw [if_neg hmem, if_neg fun h => (List.mem_cons.mp h).elim hab hmem,
          free_heap_of_ne _ hab, listDel_heap]

theorem without_listHead_of_disjoint {done : List Addr}
    (hdisjoint : List.Disjoint (context.listHead i) done) :
    (context.without done).listHead i = context.listHead i := by
  induction done generalizing context with
  | nil => rfl
  | cons a done ih =>
    have ha : a ∉ context.listHead i := fun hmem => hdisjoint hmem List.mem_cons_self
    have herase : ((context.listDel a).free a).listHead i = context.listHead i := by
      rw [free_listHead, listDel_listHead, List.erase_of_not_mem ha]
    refine (ih ?_).trans herase
    rw [herase]
    exact fun b hb hb' => hdisjoint hb (List.mem_cons_of_mem _ hb')

/-- What is left of the list whose first timers are taken off. -/
theorem without_listHead {done : List Addr} (hl : context.listHead i = done ++ rest) :
    (context.without done).listHead i = rest := by
  induction done generalizing context with
  | nil => exact hl
  | cons a done ih =>
    refine ih ?_
    rw [free_listHead, listDel_listHead, hl, List.cons_append, List.erase_cons_head]

/-- The body of the loop frees the timer it is at. -/
theorem Models.destroyEntry (h : Models p context) (hwf : context.Wf) (hi : i < context.slotNum)
    (ha : a ∈ context.listHead i) :
    ∃ p', p.destroyEntry (.timer a) = some p' ∧ Models p' ((context.listDel a).free a) := by
  obtain ⟨timer, ht⟩ := hwf.live ha
  obtain ⟨p₁, hdel, h₁⟩ := h.listDel hi ha
  refine ⟨p₁.free a, ?_, h₁.free (by rw [listDel_heap, ht]; rfl) fun j hj =>
    (hwf.nodup j).not_mem_erase hj⟩
  rw [PointerContext.destroyEntry, hdel, Option.bind_eq_bind, Option.bind_some,
    h₁.timerAt (show (context.listDel a).heap a = some timer from ht)]
  rfl

/-- **The loop over one list** frees its timers, in order. -/
theorem Models.destroySlot (h : Models p context) (hwf : context.Wf) (hi : i < context.slotNum)
    {fuel : ℕ} (hfuel : (context.listHead i).length ≤ fuel) :
    ∃ p', listForEachSafe PointerContext.cells PointerContext.destroyEntry fuel p (.slot i) =
        some (p', (context.listHead i).map .timer) ∧
      Models p' (context.without (context.listHead i)) := by
  -- the timers that are left are those of the list behind the ones that are done
  let I : PointerContext → List Node → List Node → Prop := fun p kept left =>
    kept = [] ∧ ∃ done rest, context.listHead i = done ++ rest ∧ left = rest.map .timer ∧
      Models p (context.without done)
  have hring : ∀ p kept left, I p kept left → Ring p.cells (.slot i :: (kept ++ left)) := by
    rintro p - - ⟨rfl, done, rest, hl, rfl, h⟩
    have hslot : i < (context.without done).slotNum := by rwa [without_slotNum]
    have hentries := entries_slot hslot
    rw [without_listHead hl] at hentries
    exact h.cells.ring _ _ hentries
  have hbody : ∀ p kept pos left, I p kept (pos :: left) →
      ∃ p' kept', PointerContext.destroyEntry p pos = some p' ∧ I p' kept' left := by
    rintro p - pos left ⟨rfl, done, rest, hl, hleft, h⟩
    cases rest with
    | nil => cases hleft
    | cons a rest =>
      cases hleft
      have hslot : i < (context.without done).slotNum := by rwa [without_slotNum]
      have ha : a ∈ (context.without done).listHead i := by
        rw [without_listHead hl]
        exact List.mem_cons_self
      obtain ⟨p', hrun, h'⟩ := h.destroyEntry (hwf.without done) hslot ha
      refine ⟨p', [], hrun, rfl, done ++ [a], rest, by simpa using hl, rfl, ?_⟩
      rw [without_append]
      exact h'
  obtain ⟨p', kept, hrun, -, done, rest, hl, hrest, h'⟩ := forEachSafe_ring hring hbody
    (⟨rfl, [], _, rfl, rfl, h⟩ : I p [] _) (by simpa using hfuel)
  obtain rfl : rest = [] := List.map_eq_nil_iff.mp hrest.symm
  rw [List.append_nil] at hl
  exact ⟨p', hrun, hl ▸ h'⟩

theorem disjoint_listHead (hwf : context.Wf) {i j : ℕ} (hne : i ≠ j) :
    List.Disjoint (context.listHead i) (context.listHead j) :=
  fun _ hi hj => hne (hwf.unique hi hj)

theorem Models.destroySlots (h : Models p context) (hwf : context.Wf) {fuel : ℕ}
    {slots : List ℕ} (hnodup : slots.Nodup)
    (hslots : ∀ i ∈ slots, i < context.slotNum ∧ (context.listHead i).length ≤ fuel)
    (freed : List Node) :
    ∃ p', slots.foldlM (PointerContext.destroySlot fuel) (p, freed) =
        some (p', freed ++ (slots.flatMap context.listHead).map .timer) ∧
      Models p' (context.without (slots.flatMap context.listHead)) := by
  induction slots generalizing p context freed with
  | nil => exact ⟨p, by simp, h⟩
  | cons i slots ih =>
    obtain ⟨hi, hnodup⟩ := List.nodup_cons.mp hnodup
    obtain ⟨⟨hlt, hfuel⟩, hslots⟩ := List.forall_mem_cons.mp hslots
    obtain ⟨p₁, hslot, h₁⟩ := h.destroySlot hwf hlt hfuel
    -- the other lists are as before
    have hsame : ∀ j ∈ slots, (context.without (context.listHead i)).listHead j =
        context.listHead j := fun j hj =>
      without_listHead_of_disjoint (disjoint_listHead hwf (ne_of_mem_of_not_mem hj hi))
    have hslots₁ : ∀ j ∈ slots, j < (context.without (context.listHead i)).slotNum ∧
        ((context.without (context.listHead i)).listHead j).length ≤ fuel := by
      intro j hj
      rw [without_slotNum, hsame j hj]
      exact hslots j hj
    obtain ⟨p', hrest, h'⟩ := ih h₁ (hwf.without _) hnodup hslots₁
      (freed ++ (context.listHead i).map .timer)
    have hall : slots.flatMap (context.without (context.listHead i)).listHead =
        slots.flatMap context.listHead := List.flatMap_congr hsame
    rw [hall] at hrest h'
    refine ⟨p', ?_, ?_⟩
    · rw [List.foldlM_cons, PointerContext.destroySlot, hslot, Option.bind_eq_bind,
        Option.bind_some, List.flatMap_cons, List.map_append, ← List.append_assoc]
      exact hrest
    · rw [List.flatMap_cons, without_append]
      exact h'

theorem nodup_flatMap_listHead (hwf : context.Wf) (n : ℕ) :
    ((List.range n).flatMap context.listHead).Nodup := by
  refine List.nodup_flatMap.mpr ⟨fun i _ => hwf.nodup i, ?_⟩
  exact List.nodup_range.imp fun hne => disjoint_listHead hwf hne

/-- The heads are freed once, and nothing else is. -/
theorem foldlM_freeHead {slots : List ℕ} (hnodup : slots.Nodup)
    (hslots : ∀ i ∈ slots, Mapped p.cells (.slot i)) :
    ∃ p', slots.foldlM PointerContext.freeHead p = some p' ∧ p'.heap = p.heap ∧
      ∀ node, node ∈ slots.map Node.slot ∨ Unmapped p.cells node → Unmapped p'.cells node := by
  induction slots generalizing p with
  | nil => exact ⟨p, rfl, rfl, fun node h => h.resolve_left List.not_mem_nil⟩
  | cons i slots ih =>
    obtain ⟨hi, hnodup⟩ := List.nodup_cons.mp hnodup
    obtain ⟨hmapped, hslots⟩ := List.forall_mem_cons.mp hslots
    obtain ⟨next, hnext⟩ := Option.isSome_iff_exists.mp hmapped.1
    -- the heads that are left stay where they are
    have hslots₁ : ∀ j ∈ slots, Mapped (free p.cells (.slot i)) (.slot j) := by
      intro j hj
      have hne : Node.slot j ≠ .slot i := fun heq => hi (Node.slot.inj heq ▸ hj)
      simpa [Mapped, free, hne] using hslots j hj
    obtain ⟨p', hrest, hheap, hfreed⟩ :=
      ih (p := { p with cells := free p.cells (.slot i) }) hnodup hslots₁
    refine ⟨p', ?_, hheap, ?_⟩
    · rw [List.foldlM_cons, PointerContext.freeHead, hnext]
      exact hrest
    · rintro node (hmem | hnode)
      · rcases List.mem_cons.mp hmem with rfl | hmem
        · exact hfreed _ (.inr (unmapped_free_self _ _))
        · exact hfreed node (.inl hmem)
      · exact hfreed node (.inr (unmapped_free hnode _))

/-- The last part of `HyTimerDestroy`, once no timer is there. -/
theorem Models.freeListHead (h : Models p context) (hnone : ∀ a, context.heap a = none) :
    ∃ p', p.freeListHead = some p' ∧ (∀ a, p'.heap a = none) ∧ ∀ node, Unmapped p'.cells node := by
  have hslots : ∀ i ∈ List.range context.slotNum, Mapped p.cells (.slot i) := fun i hi =>
    h.cells.mapped _ (decide_eq_true (List.mem_range.mp hi))
  obtain ⟨p', hrun, hheap, hfreed⟩ := foldlM_freeHead List.nodup_range hslots
  refine ⟨p', ?_, fun a => ?_, fun node => hfreed node ?_⟩
  · rw [PointerContext.freeListHead, h.slotNum]
    exact hrun
  · rw [hheap, h.heap, hnone]
  · rcases Bool.eq_false_or_eq_true (context.lists.live node) with hlive | hdead
    · -- what is there is a head
      left
      cases node with
      | slot i => exact List.mem_map_of_mem (List.mem_range.mpr (of_decide_eq_true hlive))
      | timer a => simp [TimerContext.lists, hnone] at hlive
      | null | poison1 | poison2 => cases hlive
    · exact .inr (h.unmapped node hdead)

/-- **`HyTimerDestroy` frees everything once**: after every run the timers that are still there are
freed, each once, and the heads and the context after them, no node that is not there is used, and no
timer and no node is left. -/
theorem destroy_frees_all {slotNum : ℕ} {contextOk listOk : Bool} {context₀ : TimerContext}
    {ops : List WheelOp} {outs : List TimerOut} (hslot : 1 ≤ slotNum)
    (hcreate : hyTimerCreate slotNum contextOk listOk = some context₀)
    (hrun : run wheelStep context₀ ops = some (context, outs)) :
    ∃ p₀ p freed, PointerContext.hyTimerCreate slotNum contextOk listOk = some p₀ ∧
      (∀ᶠ fuel in atTop, run (PointerContext.step fuel) p₀ ops = some (p, outs)) ∧
      freed.Nodup ∧ (∀ node, node ∈ freed ↔ ∃ a, node = .timer a ∧ (p.heap a).isSome) ∧
      ∀ᶠ fuel in atTop, ∃ memory, p.hyTimerDestroy fuel = some (memory, freed) ∧
        memory.context = false ∧ (∀ a, memory.heap a = none) ∧
        ∀ node, Unmapped memory.cells node := by
  obtain ⟨p₀, p, hp₀, hrun', h⟩ := run_holds hslot hcreate hrun
  -- the timers on the lists are those that are there
  have hmem : ∀ a, a ∈ (List.range context.slotNum).flatMap context.listHead ↔
      (context.heap a).isSome := by
    intro a
    rw [h.wf.live_iff, List.mem_flatMap]
    exact ⟨fun ⟨i, _, hi⟩ => ⟨i, hi⟩,
      fun ⟨i, hi⟩ => ⟨i, List.mem_range.mpr (h.wf.slot_lt hi), hi⟩⟩
  refine ⟨p₀, p, ((List.range context.slotNum).flatMap context.listHead).map .timer, hp₀, hrun',
    (nodup_flatMap_listHead h.wf context.slotNum).map timer_injective, fun node => ?_, ?_⟩
  · rw [List.mem_map, h.models.heap]
    constructor
    · rintro ⟨a, ha, rfl⟩
      exact ⟨a, rfl, (hmem a).mp ha⟩
    · rintro ⟨a, rfl, ha⟩
      exact ⟨a, (hmem a).mpr ha, rfl⟩
  · filter_upwards [eventually_rounds context] with fuel hfuel
    obtain ⟨p₁, htimers, h₁⟩ := h.models.destroySlots h.wf List.nodup_range hfuel []
    obtain ⟨p₂, hheads, hheap, hcells⟩ := h₁.freeListHead fun a => by
      rw [without_heap]
      split_ifs with ha
      · rfl
      · rwa [hmem, Option.not_isSome_iff_eq_none] at ha
    have hmutex : p₁.mutexDestroy = some p₁ := by
      rw [PointerContext.mutexDestroy, h₁.mutex, without_mutex, h.unlocked]
      rfl
    refine ⟨p₂.memory.freeContext, ?_, rfl, hheap, hcells⟩
    rw [PointerContext.hyTimerDestroy, h.models.slotNum, htimers]
    simp only [Option.bind_eq_bind, Option.bind_some, hmutex, hheads]
    rfl

theorem destroy_frees_all_two_slots :
    ∃ context outs p₀ p freed, run wheelStep ⟨2, 0, false, fun _ => [], fun _ => none⟩ wheelOps =
        some (context, outs) ∧
      PointerContext.hyTimerCreate 2 true true = some p₀ ∧
      (∀ᶠ fuel in atTop, run (PointerContext.step fuel) p₀ wheelOps = some (p, outs)) ∧
      freed.Nodup ∧ (∀ node, node ∈ freed ↔ ∃ a, node = .timer a ∧ (p.heap a).isSome) ∧
      ∀ᶠ fuel in atTop, ∃ memory, p.hyTimerDestroy fuel = some (memory, freed) ∧
        memory.context = false ∧ (∀ a, memory.heap a = none) ∧
        ∀ node, Unmapped memory.cells node := by
  have hsome : (run wheelStep ⟨2, 0, false, fun _ => [], fun _ => none⟩ wheelOps).isSome := rfl
  obtain ⟨⟨context, outs⟩, hrun⟩ := Option.isSome_iff_exists.mp hsome
  obtain ⟨p₀, p, freed, h⟩ :=
    destroy_frees_all (by decide) (show hyTimerCreate 2 true true = _ from rfl) hrun
  exact ⟨context, outs, p₀, p, freed, hrun, h⟩

end Destroy

end HyUtils.TimerWheel
