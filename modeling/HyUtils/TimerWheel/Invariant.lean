import HyUtils.TimerWheel.Model

/-!
# Every live timer is on one slot list

The timers in the heap are those on the slot lists, each on one list and once on it. Adding,
deleting and firing keep this, whatever addresses the allocator uses again.

## Main definitions

* `TimerContext.Wf`: the invariant of the wheel

## Main results

* `hyTimerAdd_wf`, `hyTimerDel_spec`, `fire_wf`: the operations keep it
* `hyTimerDel_locked`: with the mutex held, deleting a live timer blocks
-/

namespace HyUtils.TimerWheel

open SavedSuccessor

/-! ## Access -/

section Access

variable (context : TimerContext) (a b : Addr) (i slot : ℕ) (timer : Timer)

@[simp] theorem listAddTail_heap : (context.listAddTail a slot).heap = context.heap := rfl
@[simp] theorem listAddTail_slotNum : (context.listAddTail a slot).slotNum = context.slotNum := rfl
@[simp] theorem listAddTail_curSlot : (context.listAddTail a slot).curSlot = context.curSlot := rfl
@[simp] theorem listAddTail_mutex : (context.listAddTail a slot).mutex = context.mutex := rfl
@[simp] theorem listDel_heap : (context.listDel a).heap = context.heap := rfl
@[simp] theorem listDel_slotNum : (context.listDel a).slotNum = context.slotNum := rfl
@[simp] theorem listDel_curSlot : (context.listDel a).curSlot = context.curSlot := rfl
@[simp] theorem listDel_mutex : (context.listDel a).mutex = context.mutex := rfl
@[simp] theorem listDel_listHead :
    (context.listDel a).listHead i = (context.listHead i).erase a := rfl
@[simp] theorem store_listHead : (context.store a timer).listHead = context.listHead := rfl
@[simp] theorem store_slotNum : (context.store a timer).slotNum = context.slotNum := rfl
@[simp] theorem store_curSlot : (context.store a timer).curSlot = context.curSlot := rfl
@[simp] theorem store_mutex : (context.store a timer).mutex = context.mutex := rfl
@[simp] theorem free_listHead : (context.free a).listHead = context.listHead := rfl
@[simp] theorem free_slotNum : (context.free a).slotNum = context.slotNum := rfl
@[simp] theorem free_curSlot : (context.free a).curSlot = context.curSlot := rfl
@[simp] theorem free_mutex : (context.free a).mutex = context.mutex := rfl

@[simp] theorem store_heap_self : (context.store a timer).heap a = some timer :=
  Function.update_self ..

@[simp] theorem free_heap_self : (context.free a).heap a = none := Function.update_self ..

variable {a b i}

@[simp] theorem store_heap_of_ne (h : b ≠ a) : (context.store a timer).heap b = context.heap b :=
  Function.update_of_ne h ..

@[simp] theorem free_heap_of_ne (h : b ≠ a) : (context.free a).heap b = context.heap b :=
  Function.update_of_ne h ..

theorem listAddTail_listHead : (context.listAddTail a slot).listHead i =
    context.listHead i ++ if i = slot then [a] else [] := by
  change Function.update context.listHead slot (context.listHead slot ++ [a]) i = _
  by_cases h : i = slot
  · rw [h, Function.update_self, if_pos rfl]
  · rw [Function.update_of_ne h, if_neg h, List.append_nil]

theorem mem_listAddTail : b ∈ (context.listAddTail a slot).listHead i ↔
    b ∈ context.listHead i ∨ i = slot ∧ b = a := by
  rw [listAddTail_listHead]
  by_cases h : i = slot <;> simp [h]

end Access

/-! ## The invariant -/

/-- The timers in the heap are those on the slot lists, each on one list and once on it. -/
structure TimerContext.Wf (context : TimerContext) : Prop where
  curSlot_lt : context.curSlot < context.slotNum
  nodup : ∀ i, (context.listHead i).Nodup
  unique : ∀ {i j a}, a ∈ context.listHead i → a ∈ context.listHead j → i = j
  slot_lt : ∀ {i a}, a ∈ context.listHead i → i < context.slotNum
  live_iff : ∀ a, (context.heap a).isSome ↔ ∃ i, a ∈ context.listHead i

variable {context : TimerContext} {a : Addr}

theorem hyTimerCreate_wf {slotNum : ℕ} {contextOk listOk : Bool} (h : 1 ≤ slotNum)
    (hcreate : hyTimerCreate slotNum contextOk listOk = some context) :
    context.Wf ∧ context.mutex = false ∧ context.slotNum = slotNum ∧
      (∀ a, context.heap a = none) := by
  rw [hyTimerCreate] at hcreate
  split_ifs at hcreate
  obtain rfl := Option.some.inj hcreate
  exact ⟨⟨h, by simp, by simp, by simp, by simp⟩, rfl, rfl, fun _ => rfl⟩

namespace TimerContext.Wf

theorem slotNum_pos (h : context.Wf) : 0 < context.slotNum := Nat.zero_lt_of_lt h.curSlot_lt

theorem live (h : context.Wf) {i : ℕ} (ha : a ∈ context.listHead i) :
    ∃ timer, context.heap a = some timer :=
  Option.isSome_iff_exists.mp ((h.live_iff a).mpr ⟨i, ha⟩)

theorem not_mem (h : context.Wf) (ha : context.heap a = none) (i : ℕ) :
    a ∉ context.listHead i := by
  intro hmem
  obtain ⟨timer, ht⟩ := h.live hmem
  rw [ha] at ht
  cases ht

theorem of_malloc {ptr : Option Addr} (hm : context.malloc ptr = some a) :
    context.heap a = none := by
  obtain ⟨-, hnone⟩ := Option.filter_eq_some_iff.mp hm
  exact Option.isNone_iff_eq_none.mp hnone

/-- A timer written in place. -/
theorem store (h : context.Wf) (ha : (context.heap a).isSome) (timer : Timer) :
    (context.store a timer).Wf where
  curSlot_lt := h.curSlot_lt
  nodup := h.nodup
  unique := h.unique
  slot_lt := h.slot_lt
  live_iff b := by
    by_cases hb : b = a
    · subst hb
      rw [store_heap_self, store_listHead, ← h.live_iff, ha]
      rfl
    · rw [store_heap_of_ne _ _ hb, store_listHead, h.live_iff]

/-- A new timer put on a list. -/
theorem insert (h : context.Wf) (ha : context.heap a = none) (timer : Timer) {slot : ℕ}
    (hslot : slot < context.slotNum) : ((context.store a timer).listAddTail a slot).Wf where
  curSlot_lt := h.curSlot_lt
  nodup i := by
    have hna := h.not_mem ha i
    rw [listAddTail_listHead, store_listHead]
    split_ifs
    · -- the address was free, so it is on no list
      exact List.nodup_append.mpr ⟨h.nodup i, List.nodup_singleton a, by
        intro b hb c hc
        obtain rfl := List.mem_singleton.mp hc
        rintro rfl
        exact hna hb⟩
    · rw [List.append_nil]
      exact h.nodup i
  unique {i j b} hi hj := by
    rw [mem_listAddTail] at hi hj
    rcases hi with hi | ⟨rfl, rfl⟩ <;> rcases hj with hj | ⟨rfl, hb⟩
    · exact h.unique hi hj
    · exact absurd (hb ▸ hi) (h.not_mem ha i)
    · exact absurd hj (h.not_mem ha j)
    · rfl
  slot_lt {i b} hi := by
    rw [mem_listAddTail] at hi
    rcases hi with hi | ⟨rfl, -⟩
    · exact h.slot_lt hi
    · exact hslot
  live_iff b := by
    simp only [mem_listAddTail, listAddTail_heap, store_listHead]
    by_cases hb : b = a
    · subst hb
      rw [store_heap_self]
      simp
    · rw [store_heap_of_ne _ _ hb, h.live_iff]
      simp [hb]

/-- A timer unlinked and freed. -/
theorem remove (h : context.Wf) (a : Addr) : ((context.listDel a).free a).Wf where
  curSlot_lt := h.curSlot_lt
  nodup i := (h.nodup i).erase a
  unique hi hj := h.unique (List.mem_of_mem_erase hi) (List.mem_of_mem_erase hj)
  slot_lt hi := h.slot_lt (List.mem_of_mem_erase hi)
  live_iff b := by
    simp only [free_listHead, listDel_listHead, (h.nodup _).mem_erase_iff]
    by_cases hb : b = a
    · subst hb
      rw [free_heap_self]
      simp
    · rw [free_heap_of_ne _ hb, listDel_heap, h.live_iff]
      simp [hb]

end TimerContext.Wf

/-! ## The operations -/

theorem hyTimerAdd_of_malloc {timerConfig : HyTimerConfig} {ptr : Option Addr}
    (hm : context.malloc ptr = some a) :
    hyTimerAdd context timerConfig ptr =
      ((context.store a ⟨timerConfig, timerConfig.expires / context.slotNum⟩).listAddTail a
        (timerConfig.expires % context.slotNum), some a) := by
  rw [hyTimerAdd, hm]

theorem hyTimerAdd_of_malloc_none {timerConfig : HyTimerConfig} {ptr : Option Addr}
    (hm : context.malloc ptr = none) : hyTimerAdd context timerConfig ptr = (context, none) := by
  rw [hyTimerAdd, hm]

/-- **What `HyTimerAdd` can do**: nothing, or put a timer at an address that is not in use. -/
theorem hyTimerAdd_cases (context : TimerContext) (timerConfig : HyTimerConfig)
    (ptr : Option Addr) :
    hyTimerAdd context timerConfig ptr = (context, none) ∨
      ∃ a, context.heap a = none ∧ hyTimerAdd context timerConfig ptr =
        ((context.store a ⟨timerConfig, timerConfig.expires / context.slotNum⟩).listAddTail a
          (timerConfig.expires % context.slotNum), some a) := by
  cases hm : context.malloc ptr with
  | none => exact .inl (hyTimerAdd_of_malloc_none hm)
  | some a => exact .inr ⟨a, TimerContext.Wf.of_malloc hm, hyTimerAdd_of_malloc hm⟩

/-- Without memory nothing is added. -/
theorem eq_of_hyTimerAdd_none {timerConfig : HyTimerConfig} {ptr : Option Addr}
    {context' : TimerContext} (h : hyTimerAdd context timerConfig ptr = (context', none)) :
    context' = context := by
  rcases hyTimerAdd_cases context timerConfig ptr with hadd | ⟨a, -, hadd⟩
  · exact (Prod.mk.inj (h.symm.trans hadd)).1
  · cases (Prod.mk.inj (h.symm.trans hadd)).2

theorem hyTimerAdd_wf (h : context.Wf) (timerConfig : HyTimerConfig) (ptr : Option Addr) :
    (hyTimerAdd context timerConfig ptr).1.Wf := by
  rcases hyTimerAdd_cases context timerConfig ptr with hadd | ⟨a, hfree, hadd⟩
  · rw [hadd]
    exact h
  · rw [hadd]
    exact h.insert hfree _ (Nat.mod_lt _ h.slotNum_pos)

theorem find?_slot_eq_none (h : context.Wf) :
    (List.range context.slotNum).find? (fun i => a ∈ context.listHead i) = none ↔
      context.heap a = none := by
  rw [List.find?_eq_none, ← Option.not_isSome_iff_eq_none, h.live_iff, not_exists]
  simp only [List.mem_range, decide_eq_true_eq]
  exact ⟨fun hn i hi => hn i (h.slot_lt hi) hi, fun hn i _ => hn i⟩

theorem hyTimerDel_of_dead (h : context.Wf) (ha : context.heap a = none) :
    hyTimerDel context (some a) = .ok (context, some a) := by
  rw [hyTimerDel, (find?_slot_eq_none h).mpr ha]

/-- **With the mutex held**, deleting a live timer blocks. -/
theorem hyTimerDel_locked (h : context.Wf) (hlock : context.mutex = true)
    (ha : (context.heap a).isSome) : hyTimerDel context (some a) = .error .deadlock := by
  -- A live timer is found, unlinked, and the mutex locked again.
  have hne := mt (find?_slot_eq_none h).mp (Option.isSome_iff_ne_none.mp ha)
  obtain ⟨i, hi⟩ := Option.ne_none_iff_exists'.mp hne
  rw [hyTimerDel, hi]
  simp only [TimerContext.lock, listDel_mutex, hlock, if_true]
  rfl

/-- **With the mutex free**, a live timer is unlinked and freed, and its handle cleared. -/
theorem hyTimerDel_of_live (h : context.Wf) (hfree : context.mutex = false)
    (ha : (context.heap a).isSome) :
    hyTimerDel context (some a) = .ok ((context.listDel a).free a, none) := by
  have hne := mt (find?_slot_eq_none h).mp (Option.isSome_iff_ne_none.mp ha)
  obtain ⟨i, hi⟩ := Option.ne_none_iff_exists'.mp hne
  obtain ⟨slotNum, curSlot, mutex, listHead, heap⟩ := context
  obtain rfl : mutex = false := hfree
  rw [hyTimerDel, hi]
  rfl

/-- Firing a repeat timer is unlinking it and putting it back. -/
theorem fire_repeat {timer : Timer} (h : timer.timerConfig.repeatFlag = hyTimerModeRepeat) :
    fire context a timer =
      (((context.listDel a).free a).store a
        { timer with rotation := timer.timerConfig.expires / context.slotNum }).listAddTail a
        ((timer.timerConfig.expires % context.slotNum + context.curSlot) % context.slotNum) := by
  rw [fire, if_pos h]
  simp only [TimerContext.store, TimerContext.free, TimerContext.listDel, Function.update_idem]

theorem fire_once {timer : Timer} (h : timer.timerConfig.repeatFlag ≠ hyTimerModeRepeat) :
    fire context a timer = (context.listDel a).free a := if_neg h

theorem fire_wf (h : context.Wf) (a : Addr) (timer : Timer) : (fire context a timer).Wf := by
  by_cases hr : timer.timerConfig.repeatFlag = hyTimerModeRepeat
  · -- the block is not freed, but its place on the lists is taken as if it were
    rw [fire_repeat hr]
    exact (h.remove a).insert (free_heap_self ..) _ (Nat.mod_lt _ h.slotNum_pos)
  · rw [fire_once hr]
    exact h.remove a

end HyUtils.TimerWheel
