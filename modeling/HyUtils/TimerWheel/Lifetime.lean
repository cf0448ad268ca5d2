import HyUtils.TimerWheel.Ledger

/-!
# The life of a timer

Between the call that adds it and its removal, a timer is on exactly one slot list. A tick removes a
single shot exactly when it calls it, which it does once, and never removes a repeat timer. A timer
that was removed is not called again.

## Main definitions

* `LedgerOut.Removes`: a step removes a timer
* `ticksSince`: the ticks since a timer was added
* `Summary`: what a step does to the timers
* `Lifetimes`: what a run has done to the timers

## Main results

* `ledgerStep_summary`: every step is so
* `timer_lifetimes`: every run is so
-/

namespace HyUtils.TimerWheel

open Cyclic Runs

variable {n : ℕ} {s s' : Ledger} {a : Addr} {i : ℕ} {out : LedgerOut} {outs : List LedgerOut}
  {context context' : TimerContext} {timer : Timer} {slot : ℕ} {calls : List Addr}

/-- The step removes the timer, by a deletion or in a tick. -/
def LedgerOut.Removes (out : LedgerOut) (i : ℕ) : Prop := out.deleted = some i ∨ i ∈ out.freed

/-- The ticks since a timer was added. -/
def ticksSince (i : ℕ) : List LedgerOut → ℕ
  | [] => 0
  | out :: outs =>
    if out.added = some i then outs.countP LedgerOut.isTick else ticksSince i outs

/-! ## One tick and one timer -/

/-- **The fate of a timer in a tick**: a single shot that is due is called and freed, and every
other timer stays, a single shot in place and one tick closer to its call. -/
theorem Sweep.fate (h : Sweep context (context.listHead context.curSlot) context' calls)
    (hwf : context.Wf) (hat : At context a timer slot)
    (hpos : timer.timerConfig.repeatFlag = hyTimerModeRepeat → 1 ≤ timer.timerConfig.expires) :
    (timer.timerConfig.repeatFlag ≠ hyTimerModeRepeat ∧
      a ∈ context.listHead context.curSlot ∧ context'.heap a = none ∧
      calls.count a = if timer.timerConfig.timerCb.isSome then 1 else 0) ∨
    ∃ r slot', At context' a { timer with rotation := r } slot' ∧
      (timer.timerConfig.repeatFlag ≠ hyTimerModeRepeat → slot' = slot ∧ a ∉ calls ∧
        remaining (advance context') { timer with rotation := r } slot + 1 =
          remaining context timer slot) := by
  by_cases hzero : remaining context timer slot = 0
  · -- the timer is due
    obtain ⟨hmem, hrot⟩ := mem_curSlot_of_due hwf hat hzero
    by_cases hrep : timer.timerConfig.repeatFlag = hyTimerModeRepeat
    · obtain ⟨-, r, -, hat'⟩ := h.repeats (hwf.nodup _) hmem hat hrot hrep (hpos hrep)
      exact .inr ⟨r, _, hat', fun hne => absurd hrep hne⟩
    · obtain ⟨hcount, hnone⟩ := h.once (hwf.nodup _) hmem hat hrot hrep
      exact .inl ⟨hrep, hmem, hnone, hcount⟩
  · obtain ⟨hcalls, r, hat', hrem⟩ := tick_remaining_pos hwf h hat hzero
    exact .inr ⟨r, slot, hat', fun _ => ⟨rfl, hcalls, hrem⟩⟩

/-! ## One step -/

/-- A single shot waiting, with less than its delay and a round left of it after `k` ticks. -/
def Waits (n : ℕ) (s : Ledger) (i k : ℕ) : Prop :=
  ∃ a timer slot, s.owner a = some i ∧ At s.context a timer slot ∧
    remaining s.context timer slot + k < (s.config i).expires + n

/-- What a step does to the timers. -/
structure Summary (n : ℕ) (s : Ledger) (out : LedgerOut) (s' : Ledger) : Prop where
  /-- Only live timers are called. -/
  called : ∀ i ∈ out.called, ∃ a, s.owner a = some i
  /-- Only live timers are removed. -/
  removed : ∀ i, out.Removes i → (∃ a, s.owner a = some i) ∧ ∀ a, s'.owner a ≠ some i
  /-- All others are kept. -/
  kept : ∀ a i, s.owner a = some i → ¬ out.Removes i → s'.owner a = some i
  /-- The only new timer is the one added. -/
  born : ∀ a i, s'.owner a = some i → s.owner a = some i ∨ out.added = some i
  added : out.added = none ∧ s'.added = s.added ∨
    out.added = some s.added ∧ s'.added = s.added + 1 ∧ (∃ a, s'.owner a = some s.added) ∧
      ¬ out.isTick
  config : ∀ i < s.added, s'.config i = s.config i
  /-- A single shot is called when a tick frees it. -/
  once : ∀ i, (s.config i).repeatFlag ≠ hyTimerModeRepeat → (s.config i).timerCb.isSome →
    out.called.count i = out.freed.count i
  nodup : out.freed.Nodup
  /-- A tick frees no repeat timer. -/
  repeats : ∀ i, (s.config i).repeatFlag = hyTimerModeRepeat → i ∉ out.freed
  /-- A tick brings the single shots that stay closer to their call. -/
  waits : ∀ i k, (s.config i).repeatFlag ≠ hyTimerModeRepeat → Waits n s i k → ¬ out.Removes i →
    Waits n s' i (k + if out.isTick then 1 else 0)
  starts : out.added = some s.added → Waits n s' s.added 0

theorem not_removes_empty (i : ℕ) : ¬ ({} : LedgerOut).Removes i := by
  rintro (h | h)
  · cases h
  · exact List.not_mem_nil h

theorem Summary.refl (n : ℕ) (s : Ledger) : Summary n s {} s where
  called := by simp
  removed i h := absurd h (not_removes_empty i)
  kept _ _ h _ := h
  born _ _ h := .inl h
  added := .inl ⟨rfl, rfl⟩
  config _ _ := rfl
  once _ _ _ := rfl
  nodup := List.nodup_nil
  repeats _ _ := List.not_mem_nil
  waits _ _ _ h _ := h
  starts := nofun

/-- Stepping to a state in which the block of a waiting timer waits as well. -/
theorem Waits.step {k k' : ℕ} (h : Waits n s i k) (hconfig : s'.config i = s.config i)
    (hstep : ∀ a timer slot, s.owner a = some i → At s.context a timer slot →
      s'.owner a = some i ∧ ∃ r, At s'.context a { timer with rotation := r } slot ∧
        remaining s'.context { timer with rotation := r } slot + k' ≤
          remaining s.context timer slot + k) : Waits n s' i k' := by
  obtain ⟨a, timer, slot, howner, hat, hlt⟩ := h
  obtain ⟨howner', r, hat', hle⟩ := hstep a timer slot howner hat
  exact ⟨a, _, slot, howner', hat', by rw [hconfig]; omega⟩

theorem summary_add (h : Consistent n s) {timerConfig : HyTimerConfig} {ptr : Option Addr}
    (hadd : hyTimerAdd s.context timerConfig ptr = (context, some a)) :
    Summary n s { added := some s.added } {
      context
      added := s.added + 1
      owner := Function.update s.owner a (some s.added)
      config := Function.update s.config s.added timerConfig
      handle := Function.update s.handle s.added (some a) } := by
  obtain ⟨hnone, hat, hother⟩ := hyTimerAdd_some hadd
  obtain ⟨hslot, hcur, -⟩ := @hyTimerAdd_same s.context timerConfig ptr
  rw [hadd] at hslot hcur
  have hkept : ∀ b i, s.owner b = some i → Function.update s.owner a (some s.added) b = some i := by
    intro b i hb
    rw [Function.update_of_ne _, hb]
    rintro rfl
    rw [h.owner_eq_none hnone] at hb
    cases hb
  have hnot : ∀ i, ¬ ({ added := some s.added } : LedgerOut).Removes i := by
    rintro i (h | h)
    · cases h
    · exact List.not_mem_nil h
  refine ⟨by simp, fun i hi => absurd hi (hnot i), fun b i hb _ => hkept b i hb, fun b i hb => ?_,
    .inr ⟨rfl, rfl, ⟨a, Function.update_self ..⟩, Bool.false_ne_true⟩,
    fun i hi => Function.update_of_ne (Nat.ne_of_lt hi) .., fun _ _ _ => rfl, List.nodup_nil,
    fun _ _ => List.not_mem_nil, fun i k _ hw _ => ?_, fun _ => ?_⟩
  · dsimp only at hb
    by_cases hba : b = a
    · subst hba
      rw [Function.update_self] at hb
      exact .inr hb
    · rw [Function.update_of_ne hba] at hb
      exact .inl hb
  · -- the timers that wait are not moved
    have hi : i < s.added := by
      obtain ⟨b, _, _, hb, -⟩ := hw
      exact h.lt hb
    refine hw.step (Function.update_of_ne (Nat.ne_of_lt hi) ..) fun b timer slot hb hbat => ?_
    have hbat' := hyTimerAdd_at hbat timerConfig ptr
    rw [hadd] at hbat'
    exact ⟨hkept b i hb, _, hbat', by rw [remaining, remaining, hslot, hcur]; simp⟩
  · -- the slot is less than a round ahead, and the rotations are at most the delay
    have hn : s.context.slotNum = n := h.idle.2.2
    have hlt : ahead n s.context.curSlot (timerConfig.expires % n) < n :=
      ahead_lt (hn ▸ h.idle.1.curSlot_lt)
    have hdiv := Nat.mod_add_div timerConfig.expires n
    refine ⟨a, _, _, Function.update_self .., hat, ?_⟩
    dsimp only
    rw [remaining, hslot, hcur, hn, Function.update_self, countdown]
    change _ + n * (timerConfig.expires / n) + 0 < _
    omega

theorem summary_del (h : Consistent n s) (ha : s.owner a = some i) (handle : ℕ → Option Addr) :
    Summary n s { deleted := some i }
      { s.settle ((s.context.listDel a).free a) with handle } := by
  have howner := h.settle_remove_owner a
  have hremoves : ∀ j, ({ deleted := some i } : LedgerOut).Removes j ↔ i = j := by
    intro j
    rw [LedgerOut.Removes, Option.some.injEq]
    exact or_iff_left List.not_mem_nil
  have hkept : ∀ b j, s.owner b = some j → i ≠ j →
      b ≠ a ∧ (s.settle ((s.context.listDel a).free a)).owner b = some j := by
    intro b j hb hne
    have hba : b ≠ a := by
      rintro rfl
      exact hne (Option.some.inj (ha.symm.trans hb))
    exact ⟨hba, by rw [howner, if_neg hba, hb]⟩
  refine ⟨by simp, fun j hj => ?_, fun b j hb hj => (hkept b j hb (mt (hremoves j).mpr hj)).2,
    fun b j hb => ?_, .inl ⟨rfl, rfl⟩, fun _ _ => rfl, fun _ _ _ => rfl, List.nodup_nil,
    fun _ _ => List.not_mem_nil, fun j k _ hw hj => ?_, nofun⟩
  · obtain rfl := (hremoves j).mp hj
    refine ⟨⟨a, ha⟩, fun b hb => ?_⟩
    dsimp only at hb
    rw [howner] at hb
    split_ifs at hb with hba
    exact hba (h.inj hb ha)
  · dsimp only at hb
    rw [howner] at hb
    split_ifs at hb
    exact .inl hb
  · refine hw.step rfl fun b timer slot hb hbat => ?_
    obtain ⟨hba, hb'⟩ := hkept b j hb (mt (hremoves j).mpr hj)
    exact ⟨hb', _, remove_at hbat hba, le_rfl⟩

/-! ### Ticks -/

/-- The timers at a list of addresses. -/
theorem count_filterMap_owner (h : Consistent n s) (ha : s.owner a = some i) (l : List Addr) :
    (l.filterMap s.owner).count i = l.count a := by
  induction l with
  | nil => rfl
  | cons b l ih =>
    by_cases hba : b = a
    · subst hba
      rw [List.filterMap_cons, ha]
      simp [ih]
    · rw [List.filterMap_cons, List.count_cons_of_ne hba]
      cases hb : s.owner b with
      | none => exact ih
      | some j =>
        have hj : j ≠ i := by
          rintro rfl
          exact hba (h.inj hb ha)
        dsimp only
        rw [List.count_cons_of_ne hj, ih]

theorem mem_filterMap_owner (h : Consistent n s) (ha : s.owner a = some i) {l : List Addr} :
    i ∈ l.filterMap s.owner ↔ a ∈ l := by
  rw [← List.count_pos_iff, count_filterMap_owner h ha, List.count_pos_iff]

theorem nodup_filterMap_owner (h : Consistent n s) {l : List Addr} (hl : l.Nodup) :
    (l.filterMap s.owner).Nodup := by
  refine List.Nodup.filterMap (fun b c i hb hc => ?_) hl
  exact h.inj hb hc

/-- The timers a tick frees. -/
theorem mem_freed (h : Consistent n s) (ha : s.owner a = some i) :
    i ∈ ((s.context.listHead s.context.curSlot).filter fun a =>
        (context.heap a).isNone).filterMap s.owner ↔
      a ∈ s.context.listHead s.context.curSlot ∧ context.heap a = none := by
  rw [mem_filterMap_owner h ha, List.mem_filter, Option.isNone_iff_eq_none]

theorem summary_tick (h : Consistent n s) (hpos : PositiveRepeats s.context)
    (hsweep : Sweep s.context (s.context.listHead s.context.curSlot) context calls) :
    Summary n s {
      called := calls.filterMap s.owner
      freed := ((s.context.listHead s.context.curSlot).filter fun a =>
        (context.heap a).isNone).filterMap s.owner
      isTick := true } (s.settle (advance context)) := by
  have howner : ∀ {b i}, (s.settle (advance context)).owner b = some i ↔
      (context.heap b).isSome ∧ s.owner b = some i := by
    intro b i
    change (if (context.heap b).isSome then s.owner b else none) = some i ↔ _
    split_ifs with hlive <;> simp [hlive]
  have hfate : ∀ {b timer slot}, At s.context b timer slot → _ := fun {b timer slot} hat =>
    hsweep.fate h.idle.1 hat (hpos b timer hat.1)
  refine ⟨fun i hi => ?_, fun i hi => ?_, fun b i hb hi => ?_, fun b i hb => .inl (howner.mp hb).2,
    .inl ⟨rfl, rfl⟩, fun _ _ => rfl, fun i hrep hcb => ?_,
    nodup_filterMap_owner h ((h.idle.1.nodup _).filter _), fun i hrep hi => ?_,
    fun i k hrep hw hi => ?_, nofun⟩
  · obtain ⟨b, -, hb⟩ := List.mem_filterMap.mp hi
    exact ⟨b, hb⟩
  · -- what is freed leaves the heap
    have hmem := hi.resolve_left nofun
    obtain ⟨b, -, hb⟩ := List.mem_filterMap.mp hmem
    obtain ⟨-, hnone⟩ := (mem_freed h hb).mp hmem
    refine ⟨⟨b, hb⟩, fun c hc => ?_⟩
    obtain ⟨hlive, hc⟩ := howner.mp hc
    rw [h.inj hc hb, hnone] at hlive
    cases hlive
  · -- what is not freed keeps its address
    obtain ⟨timer, slot, hat, -⟩ := h.at_of_owner hb
    rcases hfate hat with ⟨-, hmem, hnone, -⟩ | ⟨r, slot', hat', -⟩
    · exact absurd (.inr ((mem_freed h hb).mpr ⟨hmem, hnone⟩)) hi
    · exact howner.mpr ⟨by rw [hat'.1]; rfl, hb⟩
  · -- the calls and the frees of a timer are those of its address
    by_cases hex : ∃ b, s.owner b = some i
    · obtain ⟨b, hb⟩ := hex
      obtain ⟨timer, slot, hat, hconfig⟩ := h.at_of_owner hb
      rw [← hconfig] at hrep hcb
      dsimp only
      rw [count_filterMap_owner h hb, count_filterMap_owner h hb]
      rcases hfate hat with ⟨-, hmem, hnone, hcount⟩ | ⟨r, slot', hat', honce⟩
      · rw [hcount, if_pos hcb, List.count_eq_one_of_mem ((h.idle.1.nodup _).filter _)]
        exact List.mem_filter.mpr ⟨hmem, by rw [hnone]; rfl⟩
      · rw [List.count_eq_zero_of_not_mem (honce hrep).2.1, List.count_eq_zero_of_not_mem]
        rw [List.mem_filter, hat'.1]
        exact fun h => Bool.false_ne_true h.2
    · have hnot : ∀ l : List Addr, i ∉ l.filterMap s.owner := fun l hi =>
        hex ((List.mem_filterMap.mp hi).imp fun b hb => hb.2)
      rw [List.count_eq_zero_of_not_mem (hnot _), List.count_eq_zero_of_not_mem (hnot _)]
  · -- what is freed was a single shot
    obtain ⟨b, -, hb⟩ := List.mem_filterMap.mp hi
    obtain ⟨-, hnone⟩ := (mem_freed h hb).mp hi
    obtain ⟨timer, slot, hat, hconfig⟩ := h.at_of_owner hb
    rcases hfate hat with ⟨honce, -⟩ | ⟨r, slot', hat', -⟩
    · exact honce (hconfig ▸ hrep)
    · rw [hat'.1] at hnone
      cases hnone
  · -- a single shot that stays was not due
    refine hw.step rfl fun b timer slot hb hat => ?_
    rw [← h.config_eq hb hat.1] at hrep
    rcases hfate hat with ⟨-, hmem, hnone, -⟩ | ⟨r, slot', hat', honce⟩
    · exact absurd (.inr ((mem_freed h hb).mpr ⟨hmem, hnone⟩)) hi
    · obtain ⟨rfl, -, hrem⟩ := honce hrep
      refine ⟨howner.mpr ⟨by rw [hat'.1]; rfl, hb⟩, r, hat', ?_⟩
      rw [if_pos rfl]
      change remaining (advance context) _ _ + _ ≤ _
      omega

/-- **Every step is so.** -/
theorem ledgerStep_summary {op : LedgerOp} (h : Consistent n s) (hpos : PositiveRepeats s.context)
    (hs : ledgerStep s op = some (s', out)) : Summary n s out s' := by
  rcases ledgerStep_cases h hs with ⟨-, rfl, rfl⟩ | ⟨_, _, a, context, -, hadd, rfl, rfl⟩ |
    ⟨_, -, -, rfl, rfl⟩ | ⟨_, a, _, -, -, hk, rfl, rfl⟩ | ⟨_, _, c₁, -, hsweep, -, -, rfl, rfl⟩
  · exact .refl n _
  · exact summary_add h hadd
  · exact .refl n _
  · exact summary_del h hk _
  · exact summary_tick h hpos hsweep

/-! ## Runs -/

/-- The repeat timers added have a positive delay. -/
def LedgerOp.Ok : LedgerOp → Prop
  | .add timerConfig _ =>
    timerConfig.repeatFlag = hyTimerModeRepeat → 1 ≤ timerConfig.expires
  | .del _ | .tick _ => True

theorem ledgerStep_positive {op : LedgerOp} (h : Consistent n s) (hpos : PositiveRepeats s.context)
    (hop : op.Ok) (hs : ledgerStep s op = some (s', out)) : PositiveRepeats s'.context := by
  rcases ledgerStep_cases h hs with ⟨-, rfl, -⟩ |
    ⟨timerConfig, ptr, a, context, rfl, hadd, rfl, -⟩ | ⟨_, -, -, rfl, -⟩ |
    ⟨_, a, _, -, -, -, rfl, -⟩ | ⟨_, _, c₁, -, hsweep, -, -, rfl, -⟩
  · exact hpos
  · have hadded := hpos.add hop ptr
    rw [hadd] at hadded
    exact hadded
  · exact hpos
  · intro b t ht
    change ((s.context.listDel a).free a).heap b = some t at ht
    by_cases hba : b = a
    · subst hba
      rw [free_heap_self] at ht
      cases ht
    · rw [free_heap_of_ne _ hba] at ht
      exact hpos b t ht
  · intro b t ht hrep
    obtain ⟨timer, htimer, hconfig⟩ := hsweep.config ht
    rw [hconfig] at hrep ⊢
    exact hpos b timer htimer hrep

/-- What a run has done to the timers. -/
structure Lifetimes (n : ℕ) (outs : List LedgerOut) (s : Ledger) : Prop where
  consistent : Consistent n s
  positive : PositiveRepeats s.context
  /-- The steps are about timers that were added. -/
  known : ∀ out ∈ outs, ∀ i, i ∈ out.called ∨ out.Removes i ∨ out.added = some i → i < s.added
  /-- The timers not removed are those in the heap. -/
  kept : ∀ i < s.added, (∀ out ∈ outs, ¬ out.Removes i) ↔ ∃ a, s.owner a = some i
  once : ∀ i < s.added, (s.config i).repeatFlag ≠ hyTimerModeRepeat →
    (s.config i).timerCb.isSome → ∀ out ∈ outs, out.called.count i = out.freed.count i
  freed : ∀ i, (outs.flatMap LedgerOut.freed).count i ≤ 1
  repeats : ∀ i < s.added, (s.config i).repeatFlag = hyTimerModeRepeat →
    ∀ out ∈ outs, i ∉ out.freed
  silent : ∀ pre out post, outs = pre ++ out :: post → ∀ i, out.Removes i →
    ∀ o ∈ post, i ∉ o.called
  waits : ∀ i < s.added, (s.config i).repeatFlag ≠ hyTimerModeRepeat →
    (∀ out ∈ outs, ¬ out.Removes i) → Waits n s i (ticksSince i outs)
  added : ∀ i < s.added, ∃ out ∈ outs, out.added = some i

theorem ticksSince_concat_of_mem (h : ∃ o ∈ outs, o.added = some i) :
    ticksSince i (outs ++ [out]) = ticksSince i outs + if out.isTick then 1 else 0 := by
  induction outs with
  | nil =>
    obtain ⟨o, ho, -⟩ := h
    exact absurd ho List.not_mem_nil
  | cons o outs ih =>
    rw [List.cons_append, ticksSince, ticksSince]
    by_cases ho : o.added = some i
    · rw [if_pos ho, if_pos ho, List.countP_append, List.countP_singleton]
    · obtain ⟨o', ho', hadded⟩ := h
      rcases List.mem_cons.mp ho' with rfl | ho'
      · exact absurd hadded ho
      · rw [if_neg ho, if_neg ho, ih ⟨o', ho', hadded⟩]

theorem ticksSince_concat_of_not_mem (h : ∀ o ∈ outs, o.added ≠ some i)
    (hout : out.added = some i) : ticksSince i (outs ++ [out]) = 0 := by
  induction outs with
  | nil => simp [ticksSince, hout]
  | cons o outs ih =>
    obtain ⟨ho, hrest⟩ := List.forall_mem_cons.mp h
    rw [List.cons_append, ticksSince, if_neg ho]
    exact ih hrest

theorem forall_mem_concat {P : LedgerOut → Prop} :
    (∀ o ∈ outs ++ [out], P o) ↔ (∀ o ∈ outs, P o) ∧ P out := by
  rw [List.forall_mem_append, List.forall_mem_singleton]

theorem Summary.added_le (h : Summary n s out s') : s.added ≤ s'.added := by
  rcases h.added with ⟨-, hadded⟩ | ⟨-, hadded, -⟩ <;> omega

theorem Summary.lt_added (h : Summary n s out s') (hi : i < s'.added) :
    i < s.added ∨ i = s.added ∧ out.added = some s.added := by
  rcases h.added with ⟨-, hadded⟩ | ⟨hout, hadded, -⟩
  · exact .inl (hadded ▸ hi)
  · rw [hadded] at hi
    rcases Nat.lt_succ_iff_lt_or_eq.mp hi with hi | rfl
    · exact .inl hi
    · exact .inr ⟨rfl, hout⟩

theorem Summary.eq_added (h : Summary n s out s') (hi : out.added = some i) :
    i = s.added ∧ s'.added = s.added + 1 := by
  rcases h.added with ⟨hnone, -⟩ | ⟨hsome, hadded, -⟩
  · rw [hnone] at hi
    cases hi
  · exact ⟨Option.some.inj (hi.symm.trans hsome), hadded⟩

/-- A timer no step was about. -/
def Untouched (outs : List LedgerOut) (i : ℕ) : Prop :=
  ∀ o ∈ outs, ¬ o.Removes i ∧ i ∉ o.called ∧ i ∉ o.freed

theorem Lifetimes.untouched (h : Lifetimes n outs s) (hsum : Summary n s out s') :
    Untouched (outs ++ [out]) s.added := by
  have hlive : ¬ ∃ a, s.owner a = some s.added := fun ⟨_, ha⟩ =>
    Nat.lt_irrefl _ (h.consistent.lt ha)
  refine forall_mem_concat.mpr ⟨fun o ho => ?_, ?_⟩
  · have hnot : ¬ o.Removes s.added := fun hr =>
      Nat.lt_irrefl _ (h.known o ho _ (.inr (.inl hr)))
    exact ⟨hnot, fun hc => Nat.lt_irrefl _ (h.known o ho _ (.inl hc)), mt .inr hnot⟩
  · have hnot : ¬ out.Removes s.added := fun hr => hlive (hsum.removed _ hr).1
    exact ⟨hnot, fun hc => hlive (hsum.called _ hc), mt .inr hnot⟩

theorem Lifetimes.not_removed (h : Lifetimes n outs s) (ha : s.owner a = some i) :
    ∀ o ∈ outs, ¬ o.Removes i := (h.kept i (h.consistent.lt ha)).mpr ⟨a, ha⟩

/-- A step is about timers that have been added, itself included. -/
theorem Lifetimes.known_snoc (h : Lifetimes n outs s) (hsum : Summary n s out s') :
    ∀ o ∈ outs ++ [out], ∀ i, i ∈ o.called ∨ o.Removes i ∨ o.added = some i → i < s'.added := by
  refine forall_mem_concat.mpr ⟨fun o ho i hi => (h.known o ho i hi).trans_le hsum.added_le, ?_⟩
  intro i hi
  rcases hi with hi | hi | hi
  · obtain ⟨a, ha⟩ := hsum.called i hi
    exact (h.consistent.lt ha).trans_le hsum.added_le
  · obtain ⟨⟨a, ha⟩, -⟩ := hsum.removed i hi
    exact (h.consistent.lt ha).trans_le hsum.added_le
  · obtain ⟨rfl, hadded⟩ := hsum.eq_added hi
    omega

/-- The timers that are live after a step are those that no step has removed. -/
theorem Lifetimes.kept_snoc (h : Lifetimes n outs s) (hsum : Summary n s out s') {i : ℕ}
    (hi : i < s'.added) :
    (∀ o ∈ outs ++ [out], ¬ o.Removes i) ↔ ∃ a, s'.owner a = some i := by
  rw [forall_mem_concat]
  rcases hsum.lt_added hi with hi | ⟨rfl, hadded⟩
  · -- an address that names the timer afterwards named it before
    rw [h.kept i hi]
    constructor
    · rintro ⟨⟨a, ha⟩, hnot⟩
      exact ⟨a, hsum.kept a i ha hnot⟩
    · rintro ⟨a, ha⟩
      refine ⟨⟨a, (hsum.born a i ha).resolve_right fun hadded => ?_⟩,
        fun hr => (hsum.removed i hr).2 a ha⟩
      exact absurd (hsum.eq_added hadded).1 (Nat.ne_of_lt hi)
  · -- the timer just added is live, and no step was about it
    obtain ⟨hnone, -⟩ | ⟨-, -, hlive, -⟩ := hsum.added
    · rw [hnone] at hadded
      cases hadded
    · exact iff_of_true (forall_mem_concat.mp fun o ho => (h.untouched hsum o ho).1) hlive

/-- A timer is freed once at most. -/
theorem Lifetimes.freed_snoc (h : Lifetimes n outs s) (hsum : Summary n s out s') (i : ℕ) :
    ((outs ++ [out]).flatMap LedgerOut.freed).count i ≤ 1 := by
  rw [List.flatMap_append, List.count_append, List.flatMap_singleton]
  by_cases hi : i ∈ out.freed
  · -- what is freed now was live, so it was not freed before
    obtain ⟨⟨a, ha⟩, -⟩ := hsum.removed i (.inr hi)
    have hnone : i ∉ outs.flatMap LedgerOut.freed := by
      rw [List.mem_flatMap]
      rintro ⟨o, ho, hmem⟩
      exact h.not_removed ha o ho (.inr hmem)
    rw [List.count_eq_zero_of_not_mem hnone, List.count_eq_one_of_mem hsum.nodup hi]
  · rw [List.count_eq_zero_of_not_mem hi]
    exact h.freed i

/-- **A run made longer by a step.** -/
theorem Lifetimes.snoc (h : Lifetimes n outs s) (hsum : Summary n s out s')
    (hcons : Consistent n s') (hpos : PositiveRepeats s'.context) :
    Lifetimes n (outs ++ [out]) s' where
  consistent := hcons
  positive := hpos
  known := h.known_snoc hsum
  kept i hi := h.kept_snoc hsum hi
  once i hi hrep hcb := by
    rcases hsum.lt_added hi with hi | ⟨rfl, -⟩
    · rw [hsum.config i hi] at hrep hcb
      exact forall_mem_concat.mpr ⟨h.once i hi hrep hcb, hsum.once i hrep hcb⟩
    · intro o ho
      obtain ⟨-, hcalled, hfreed⟩ := h.untouched hsum o ho
      rw [List.count_eq_zero_of_not_mem hcalled, List.count_eq_zero_of_not_mem hfreed]
  freed i := h.freed_snoc hsum i
  repeats i hi hrep := by
    rcases hsum.lt_added hi with hi | ⟨rfl, -⟩
    · rw [hsum.config i hi] at hrep
      exact forall_mem_concat.mpr ⟨h.repeats i hi hrep, hsum.repeats i hrep⟩
    · exact fun o ho => (h.untouched hsum o ho).2.2
  silent pre out₀ post heq i hr := by
    rcases post.eq_nil_or_concat with rfl | ⟨post, o, rfl⟩
    · exact fun o ho => absurd ho List.not_mem_nil
    · -- what is called now is live, so it was not removed before
      rw [List.concat_eq_append, ← List.cons_append, ← List.append_assoc] at heq
      obtain ⟨rfl, hlast⟩ := List.append_inj' heq rfl
      obtain rfl := List.singleton_injective hlast
      rw [List.concat_eq_append]
      refine forall_mem_concat.mpr ⟨h.silent pre out₀ post rfl i hr, fun hc => ?_⟩
      obtain ⟨a, ha⟩ := hsum.called i hc
      exact h.not_removed ha out₀ (by simp) hr
  waits i hi hrep hkept := by
    obtain ⟨hold, hnew⟩ := forall_mem_concat.mp hkept
    rcases hsum.lt_added hi with hi | ⟨rfl, hadded⟩
    · rw [hsum.config i hi] at hrep
      rw [ticksSince_concat_of_mem (h.added i hi)]
      exact hsum.waits i _ hrep (h.waits i hi hrep hold) hnew
    · rw [ticksSince_concat_of_not_mem (fun o ho ha => ?_) hadded]
      · exact hsum.starts hadded
      · exact Nat.lt_irrefl _ (h.known o ho _ (.inr (.inr ha)))
  added i hi := by
    rcases hsum.lt_added hi with hi | ⟨rfl, hadded⟩
    · obtain ⟨o, ho, ha⟩ := h.added i hi
      exact ⟨o, List.mem_append_left _ ho, ha⟩
    · exact ⟨out, by simp, hadded⟩

theorem start_lifetimes {slotNum : ℕ} {contextOk listOk : Bool} (hslot : 1 ≤ slotNum)
    (hcreate : hyTimerCreate slotNum contextOk listOk = some context) :
    Lifetimes slotNum [] (Ledger.start context) where
  consistent := start_consistent hslot hcreate
  positive a timer ht := by
    rw [Ledger.start, (hyTimerCreate_wf hslot hcreate).2.2.2 a] at ht
    cases ht
  known := by simp
  kept i hi := absurd hi (Nat.not_lt_zero i)
  once i hi := absurd hi (Nat.not_lt_zero i)
  freed := by simp
  repeats i hi := absurd hi (Nat.not_lt_zero i)
  silent pre out post h := by simp at h
  waits i hi := absurd hi (Nat.not_lt_zero i)
  added i hi := absurd hi (Nat.not_lt_zero i)

theorem run_lifetimes {slotNum : ℕ} {contextOk listOk : Bool} {ops : List LedgerOp}
    (hslot : 1 ≤ slotNum) (hcreate : hyTimerCreate slotNum contextOk listOk = some context)
    (hops : ∀ op ∈ ops, op.Ok) (hrun : run ledgerStep (Ledger.start context) ops = some (s, outs)) :
    Lifetimes slotNum outs s := by
  have hstep : ∀ (hist : List LedgerOut) (s : Ledger) (op : LedgerOp) (t : Ledger)
      (out : LedgerOut), Lifetimes slotNum hist s → op.Ok → ledgerStep s op = some (t, out) →
        Lifetimes slotNum (hist ++ [out]) t := fun hist s op t out h hop hs =>
    h.snoc (ledgerStep_summary h.consistent h.positive hs) (ledgerStep_consistent h.consistent hs)
      (ledgerStep_positive h.consistent h.positive hop hs)
  exact run_history (Lifetimes slotNum) hstep (start_lifetimes hslot hcreate) hops hrun

/-- The timers of a reachable wheel are each on one slot list, once. -/
theorem Lifetimes.placed (h : Lifetimes n outs s) (hi : i < s.added)
    (hkept : ∀ out ∈ outs, ¬ out.Removes i) :
    ∃ a slot, s.owner a = some i ∧ slot < s.context.slotNum ∧
      ∀ j, (s.context.listHead j).count a = if j = slot then 1 else 0 := by
  obtain ⟨a, ha⟩ := (h.kept i hi).mp hkept
  obtain ⟨timer, slot, hat, -⟩ := h.consistent.at_of_owner ha
  have hwf := h.consistent.idle.1
  refine ⟨a, slot, ha, hwf.slot_lt hat.2, fun j => ?_⟩
  split_ifs with hj
  · subst hj
    exact List.count_eq_one_of_mem (hwf.nodup j) hat.2
  · exact List.count_eq_zero_of_not_mem fun hmem => hj (hwf.unique hmem hat.2)

/-- A single shot is called as often as a tick frees it. -/
theorem Lifetimes.count_called (h : Lifetimes n outs s) (hi : i < s.added)
    (hrep : (s.config i).repeatFlag ≠ hyTimerModeRepeat) (hcb : (s.config i).timerCb.isSome) :
    (outs.flatMap LedgerOut.called).count i = (outs.flatMap LedgerOut.freed).count i := by
  have honce := h.once i hi hrep hcb
  clear h
  induction outs with
  | nil => rfl
  | cons o outs ih =>
    obtain ⟨ho, hrest⟩ := List.forall_mem_cons.mp honce
    rw [List.flatMap_cons, List.flatMap_cons, List.count_append, List.count_append, ho, ih hrest]

/-- A single shot that is not deleted is called before its delay and a round are over. -/
theorem Lifetimes.called_of_ticks (h : Lifetimes n outs s) (hi : i < s.added)
    (hrep : (s.config i).repeatFlag ≠ hyTimerModeRepeat) (hcb : (s.config i).timerCb.isSome)
    (hdel : ∀ out ∈ outs, out.deleted ≠ some i)
    (hticks : (s.config i).expires + n ≤ ticksSince i outs) :
    (outs.flatMap LedgerOut.called).count i = 1 := by
  -- A timer neither deleted nor freed still waits, with less than its delay and a round left.
  have hmem : i ∈ outs.flatMap LedgerOut.freed := by
    by_contra hnot
    rw [List.mem_flatMap] at hnot
    obtain ⟨a, timer, slot, -, -, hlt⟩ := h.waits i hi hrep fun out ho hr =>
      hr.elim (hdel out ho) fun hf => hnot ⟨out, ho, hf⟩
    omega
  have hpos := List.count_pos_iff.mpr hmem
  have hle := h.freed i
  rw [h.count_called hi hrep hcb]
  omega

/-- **The lives of timers**: in every run with repeat timers of positive delay, each timer that was
added and not removed is on exactly one slot list, exactly once; a deletion through its handle
removes it from there and frees it; a single shot is called once, and freed in the tick that calls
it, which comes unless it is deleted first; a tick frees no repeat timer; and a timer that was
removed is not called again. The next tick always ends. -/
theorem timer_lifetimes {slotNum : ℕ} {contextOk listOk : Bool} {ops : List LedgerOp}
    (hslot : 1 ≤ slotNum) (hcreate : hyTimerCreate slotNum contextOk listOk = some context)
    (hops : ∀ op ∈ ops, op.Ok) (hrun : run ledgerStep (Ledger.start context) ops = some (s, outs)) :
    s.context.curSlot < slotNum ∧
    (∀ i < s.added, (∀ out ∈ outs, ¬ out.Removes i) →
      ∃ a slot, s.owner a = some i ∧ slot < slotNum ∧
        ∀ j, (s.context.listHead j).count a = if j = slot then 1 else 0) ∧
    (∀ i < s.added, (∀ out ∈ outs, ¬ out.Removes i) →
      ∃ a s', s.owner a = some i ∧ ledgerStep s (.del i) = some (s', { deleted := some i }) ∧
        s'.context.heap a = none ∧ ∀ j, a ∉ s'.context.listHead j) ∧
    (∀ i < s.added, (s.config i).repeatFlag ≠ hyTimerModeRepeat → (s.config i).timerCb.isSome →
      (∀ out ∈ outs, out.called.count i = out.freed.count i) ∧
      (outs.flatMap LedgerOut.called).count i ≤ 1 ∧
      ((∀ out ∈ outs, out.deleted ≠ some i) → (s.config i).expires + slotNum ≤ ticksSince i outs →
        (outs.flatMap LedgerOut.called).count i = 1)) ∧
    (∀ i < s.added, (s.config i).repeatFlag = hyTimerModeRepeat → ∀ out ∈ outs, i ∉ out.freed) ∧
    (∀ pre out post, outs = pre ++ out :: post → ∀ i, out.Removes i → ∀ o ∈ post, i ∉ o.called) ∧
    ∃ fuel, (ledgerStep s (.tick fuel)).isSome := by
  have h := run_lifetimes hslot hcreate hops hrun
  obtain ⟨hwf, hfree, hn⟩ := id h.consistent.idle
  refine ⟨hn ▸ hwf.curSlot_lt, fun i hi hkept => hn ▸ h.placed hi hkept, fun i hi hkept => ?_,
    fun i hi hrep hcb => ⟨h.once i hi hrep hcb, ?_, h.called_of_ticks hi hrep hcb⟩, h.repeats,
    h.silent, ?_⟩
  · obtain ⟨a, ha⟩ := (h.kept i hi).mp hkept
    obtain ⟨s', hdel, hgone⟩ := h.consistent.del ha
    exact ⟨a, s', ha, hdel, hgone⟩
  · rw [h.count_called hi hrep hcb]
    exact h.freed i
  · obtain ⟨context', calls, htick⟩ := tick_completes hwf hfree h.positive (Nat.le_refl _)
    exact ⟨_, by rw [ledgerStep, htick]; rfl⟩

/-- A single shot and a repeat timer on a wheel of two slots, the first address being used again. -/
theorem timer_lifetimes_two :
    ∃ (s : Ledger) (outs : List LedgerOut),
      s.context.curSlot < 2 ∧
      (∀ i < s.added, (∀ out ∈ outs, ¬ out.Removes i) →
        ∃ a slot, s.owner a = some i ∧ slot < 2 ∧
          ∀ j, (s.context.listHead j).count a = if j = slot then 1 else 0) ∧
      (∀ i < s.added, (∀ out ∈ outs, ¬ out.Removes i) →
        ∃ a s', s.owner a = some i ∧ ledgerStep s (.del i) = some (s', { deleted := some i }) ∧
          s'.context.heap a = none ∧ ∀ j, a ∉ s'.context.listHead j) ∧
      (∀ i < s.added, (s.config i).repeatFlag ≠ hyTimerModeRepeat →
        (s.config i).timerCb.isSome →
        (∀ out ∈ outs, out.called.count i = out.freed.count i) ∧
        (outs.flatMap LedgerOut.called).count i ≤ 1 ∧
        ((∀ out ∈ outs, out.deleted ≠ some i) → (s.config i).expires + 2 ≤ ticksSince i outs →
          (outs.flatMap LedgerOut.called).count i = 1)) ∧
      (∀ i < s.added, (s.config i).repeatFlag = hyTimerModeRepeat →
        ∀ out ∈ outs, i ∉ out.freed) ∧
      (∀ pre out post, outs = pre ++ out :: post → ∀ i, out.Removes i →
        ∀ o ∈ post, i ∉ o.called) ∧
      ∃ fuel, (ledgerStep s (.tick fuel)).isSome :=
  ⟨_, _, timer_lifetimes (by decide) (show hyTimerCreate 2 true true = some _ from rfl)
    (show ∀ op ∈ [.add ⟨0, 0, some 0, 0⟩ (some 100), .add ⟨1, 1, some 0, 0⟩ (some 101), .tick 1,
        .add ⟨3, 0, some 0, 0⟩ (some 100), .tick 2, .del 2], LedgerOp.Ok op by
      simp [LedgerOp.Ok, hyTimerModeRepeat])
    (show run ledgerStep _ _ = some (_, _) from rfl)⟩

end HyUtils.TimerWheel
