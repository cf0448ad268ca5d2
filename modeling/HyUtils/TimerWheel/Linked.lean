import HyUtils.HyList.Refinement
import HyUtils.TimerWheel.Pointers
import HyUtils.TimerWheel.Reentrancy
import Mathlib.Order.Filter.AtTopBot.Basic
import Mathlib.Order.Filter.Finite

/-!
# The slot lists as rings of nodes

The head of each slot list and the timers on it are a ring of nodes. What the module does to the
lists is what its pointers do to the rings.

## Main definitions

* `TimerContext.lists`: the slot lists, as lists of nodes
* `Models p context`: the pointers hold the slot lists, and the heap the timers

## Main results

* `Models.listAddTail`, `Models.listDel`, `Models.malloc`, `Models.free`: the writes
* `delFrom_eq`, `delSlots_eq`: the loops of `HyTimerDel` find the timer
* `Models.hyTimerAdd`, `Models.hyTimerDel`: additions and deletions
-/

namespace HyUtils.TimerWheel

open Rings HyList Runs SavedSuccessor Filter

variable {context context' : TimerContext} {p p' : PointerContext} {a b : Addr} {i slot : ℕ}
  {timer : Timer} {pre post : List Addr}

theorem timer_injective : Function.Injective Node.timer := fun _ _ h => Node.timer.inj h

/-- The slot lists and the timers, as lists of nodes. -/
def TimerContext.lists (context : TimerContext) : ListTable Node where
  live
    | .slot i => i < context.slotNum
    | .timer a => (context.heap a).isSome
    | _ => false
  entries
    | .slot i => if i < context.slotNum then some ((context.listHead i).map .timer) else none
    | _ => none

/-- The node of a place on the list of slot `i`: its head, or a timer. -/
def nodeAt (i : ℕ) : Option Addr → Node
  | none => .slot i
  | some a => .timer a

theorem headD_map (l : List Addr) (i : ℕ) :
    (l.map Node.timer).headD (.slot i) = nodeAt i l.head? := by cases l <;> rfl

/-- The pointers hold the slot lists, and there are no other nodes. -/
structure Models (p : PointerContext) (context : TimerContext) : Prop where
  slotNum : p.slotNum = context.slotNum
  curSlot : p.curSlot = context.curSlot
  mutex : p.mutex = context.mutex
  heap : p.heap = context.heap
  cells : Represents p.cells context.lists
  unmapped : ∀ node, context.lists.live node = false → Unmapped p.cells node

section Lists

theorem entries_slot (hi : i < context.slotNum) :
    context.lists.entries (.slot i) = some ((context.listHead i).map .timer) := if_pos hi

theorem entries_slot_of_not_lt (hi : ¬ i < context.slotNum) :
    context.lists.entries (.slot i) = none := if_neg hi

theorem eq_slot_of_entries {h : Node} {xs : List Node} (hh : context.lists.entries h = some xs) :
    ∃ i, i < context.slotNum ∧ h = .slot i ∧ xs = (context.listHead i).map .timer := by
  cases h with
  | slot i =>
    simp only [TimerContext.lists] at hh
    split_ifs at hh with hi
    exact ⟨i, hi, rfl, (Option.some.inj hh).symm⟩
  | null | poison1 | poison2 | timer a => cases hh

theorem timer_mem_map {l : List Addr} : Node.timer a ∈ l.map Node.timer ↔ a ∈ l := by simp

/-- The next node of a head. -/
theorem Models.next_slot (h : Models p context) (hi : i < context.slotNum) :
    p.cells.next (.slot i) = some (nodeAt i (context.listHead i).head?) := by
  rw [(h.cells.ring _ _ (entries_slot hi)).next_eq, headD_map]

/-- The next node of a timer. -/
theorem Models.next_timer (h : Models p context) (hi : i < context.slotNum)
    (hl : context.listHead i = pre ++ a :: post) :
    p.cells.next (.timer a) = some (nodeAt i post.head?) := by
  have hring := h.cells.ring _ _ (entries_slot hi)
  rw [hl, List.map_append, List.map_cons] at hring
  have hfront : Ring p.cells (.timer a :: (post.map .timer ++ .slot i :: pre.map .timer)) :=
    hring.rotate (Node.slot i :: pre.map .timer) (Node.timer a :: post.map .timer)
  rw [hfront.next_eq]
  cases post <;> rfl

/-- The node behind the first of those that are left, as it is saved. -/
theorem Models.next_saved (h : Models p context) (hi : i < context.slotNum) {l : List Addr}
    (hl : context.listHead i = pre ++ l) :
    ∃ n, p.cells.next (nodeAt i l.head?) = some n ∧ (l ≠ [] → n = nodeAt i l.tail.head?) := by
  cases l with
  | nil => exact ⟨_, h.next_slot hi, fun hnil => absurd rfl hnil⟩
  | cons b l => exact ⟨_, h.next_timer hi hl, fun _ => rfl⟩

theorem loose_timer (hlive : (context.heap a).isSome) (hoff : ∀ i, a ∉ context.listHead i) :
    context.lists.Loose (.timer a) := by
  refine ⟨hlive, fun h xs hh => ?_, rfl⟩
  obtain ⟨i, -, -, rfl⟩ := eq_slot_of_entries hh
  exact timer_mem_map.not.mpr (hoff i)

theorem onList_slot (hi : i < context.slotNum) : context.lists.OnList (.slot i) :=
  ⟨.slot i, _, entries_slot hi, List.mem_cons_self⟩

theorem removable_timer (hi : i < context.slotNum) (ha : a ∈ context.listHead i) :
    context.lists.Removable (.timer a) :=
  .inl ⟨.slot i, _, entries_slot hi, timer_mem_map.mpr ha⟩

theorem lists_listAddTail (a : Addr) (slot : ℕ) :
    context.lists.addTail (.timer a) (.slot slot) = (context.listAddTail a slot).lists := by
  refine ListTable.ext (funext fun h => ?_) (funext fun h => ?_)
  · cases h <;> rfl
  · cases h with
    | slot i =>
      have hadd : (context.lists.addTail (.timer a) (.slot slot)).entries (.slot i) =
          (context.lists.entries (.slot i)).map (putPrev [.timer a] (.slot slot) (.slot i)) := rfl
      rw [hadd]
      by_cases hi : i < context.slotNum
      · have hi' : i < (context.listAddTail a slot).slotNum := hi
        rw [entries_slot hi, entries_slot hi', Option.map_some, listAddTail_listHead,
          List.map_append]
        by_cases his : i = slot
        · subst his
          rw [putPrev, if_pos rfl, if_pos rfl, List.map_singleton]
        · have hoff : Node.slot slot ∉ Node.slot i :: (context.listHead i).map .timer := by
            simpa using Ne.symm his
          rw [putPrev_of_notMem _ hoff, if_neg his, List.map_nil, List.append_nil]
      · have hi' : ¬ i < (context.listAddTail a slot).slotNum := hi
        rw [entries_slot_of_not_lt hi, entries_slot_of_not_lt hi', Option.map_none]
    | timer b =>
      simp only [ListTable.addTail, TimerContext.lists]
      split_ifs <;> rfl
    | null | poison1 | poison2 => rfl

theorem lists_listDel (a : Addr) : context.lists.del (.timer a) = (context.listDel a).lists := by
  refine ListTable.ext (funext fun h => ?_) (funext fun h => ?_)
  · cases h <;> rfl
  · cases h with
    | slot i =>
      have hdel : (context.lists.del (.timer a)).entries (.slot i) =
          (context.lists.entries (.slot i)).map fun xs => xs.erase (.timer a) := rfl
      rw [hdel]
      by_cases hi : i < context.slotNum
      · have hi' : i < (context.listDel a).slotNum := hi
        rw [entries_slot hi, entries_slot hi', Option.map_some, listDel_listHead,
          List.map_erase timer_injective]
      · have hi' : ¬ i < (context.listDel a).slotNum := hi
        rw [entries_slot_of_not_lt hi, entries_slot_of_not_lt hi', Option.map_none]
    | timer b =>
      simp only [ListTable.del, TimerContext.lists]
      split_ifs <;> rfl
    | null | poison1 | poison2 => rfl

theorem lists_store (ha : (context.heap a).isSome) (timer : Timer) :
    (context.store a timer).lists = context.lists := by
  refine ListTable.ext (funext fun h => ?_) (funext fun h => ?_)
  · cases h with
    | timer b =>
      by_cases hb : b = a
      · subst hb
        simp [TimerContext.lists, ha]
      · simp [TimerContext.lists, hb]
    | slot | null | poison1 | poison2 => rfl
  · cases h <;> rfl

theorem lists_malloc (a : Addr) (timer : Timer) :
    context.lists.alloc (.timer a) = (context.store a timer).lists := by
  refine ListTable.ext (funext fun h => ?_) (funext fun h => ?_)
  · cases h with
    | timer b =>
      by_cases hb : b = a
      · subst hb
        simp [ListTable.alloc, TimerContext.lists]
      · have hne : Node.timer b ≠ Node.timer a := fun h => hb (Node.timer.inj h)
        simp [ListTable.alloc, TimerContext.lists, hb, hne]
    | slot | null | poison1 | poison2 => rfl
  · cases h <;> rfl

theorem lists_free (a : Addr) : context.lists.free (.timer a) = (context.free a).lists := by
  refine ListTable.ext (funext fun h => ?_) (funext fun h => ?_)
  · cases h with
    | timer b =>
      by_cases hb : b = a
      · subst hb
        simp [ListTable.free, TimerContext.lists]
      · have hne : Node.timer b ≠ Node.timer a := fun h => hb (Node.timer.inj h)
        simp [ListTable.free, TimerContext.lists, hb, hne]
    | slot | null | poison1 | poison2 => rfl
  · cases h with
    | timer b =>
      simp only [ListTable.free, Function.update_apply, TimerContext.lists, ite_self]
    | slot | null | poison1 | poison2 => rfl

end Lists

/-! ## Writes -/

section Writes

theorem Models.listAddTail (h : Models p context) (hlive : (context.heap a).isSome)
    (hoff : ∀ i, a ∉ context.listHead i) (hslot : slot < context.slotNum) :
    ∃ p', p.listAddTail (.timer a) (.slot slot) = some p' ∧
      Models p' (context.listAddTail a slot) := by
  obtain ⟨cells, hrun, hcells⟩ := h.cells.addTail (loose_timer hlive hoff) (onList_slot hslot)
    (by simp)
  refine ⟨{ p with cells }, ?_, h.slotNum, h.curSlot, h.mutex, h.heap, ?_, fun node hnode => ?_⟩
  · rw [PointerContext.listAddTail, hrun]
    rfl
  · rw [← lists_listAddTail]
    exact hcells
  · exact unmapped_listAddTail hrun (h.unmapped node hnode)

theorem Models.listDel (h : Models p context) (hi : i < context.slotNum)
    (ha : a ∈ context.listHead i) :
    ∃ p', p.listDel (.timer a) = some p' ∧ Models p' (context.listDel a) := by
  obtain ⟨cells, hrun, hcells⟩ := h.cells.del (removable_timer hi ha) ⟨.poison1, .poison2⟩
  refine ⟨{ p with cells }, ?_, h.slotNum, h.curSlot, h.mutex, h.heap, ?_, fun node hnode => ?_⟩
  · rw [PointerContext.listDel, hrun]
    rfl
  · rw [← lists_listDel]
    exact hcells
  · exact unmapped_listDel hrun (h.unmapped node hnode)

theorem Models.store (h : Models p context) (ha : (context.heap a).isSome) (timer : Timer) :
    Models (p.store a timer) (context.store a timer) := by
  refine ⟨h.slotNum, h.curSlot, h.mutex, ?_, ?_, ?_⟩
  · rw [PointerContext.store, h.heap]
    rfl
  · rw [lists_store ha]
    exact h.cells
  · rw [lists_store ha]
    exact h.unmapped

theorem Models.malloc (h : Models p context) (ha : context.heap a = none) (timer : Timer) :
    Models (p.malloc a timer) (context.store a timer) := by
  refine ⟨h.slotNum, h.curSlot, h.mutex, ?_, ?_, fun node hnode => ?_⟩
  · rw [PointerContext.malloc, h.heap]
    rfl
  · rw [← lists_malloc]
    exact h.cells.alloc (by simp [TimerContext.lists, ha]) _ _
  · rw [← lists_malloc] at hnode
    by_cases hne : node = .timer a
    · simp [ListTable.alloc, hne] at hnode
    · have hdead : context.lists.live node = false := by
        simpa [ListTable.alloc, hne] using hnode
      exact unmapped_alloc (h.unmapped node hdead) hne _ _

theorem Models.free (h : Models p context) (hlive : (context.heap a).isSome)
    (hoff : ∀ i, a ∉ context.listHead i) : Models (p.free a) (context.free a) := by
  refine ⟨h.slotNum, h.curSlot, h.mutex, ?_, ?_, fun node hnode => ?_⟩
  · rw [PointerContext.free, h.heap]
    rfl
  · rw [← lists_free]
    exact h.cells.free (loose_timer hlive hoff)
  · rw [← lists_free] at hnode
    by_cases hne : node = .timer a
    · exact hne ▸ unmapped_free_self p.cells (.timer a)
    · have hdead : context.lists.live node = false := by
        simpa [ListTable.free, hne] using hnode
      exact unmapped_free (h.unmapped node hdead) (.timer a)

theorem Models.setMutex (h : Models p context) (b : Bool) :
    Models { p with mutex := b } { context with mutex := b } :=
  ⟨h.slotNum, h.curSlot, rfl, h.heap, h.cells, h.unmapped⟩

theorem Models.lock (h : Models p context) (hlock : context.lock = .ok context') :
    ∃ p', p.lock = some p' ∧ Models p' context' := by
  rw [TimerContext.lock] at hlock
  split_ifs at hlock with hmutex
  cases hlock
  refine ⟨{ p with mutex := true }, ?_, h.setMutex true⟩
  rw [PointerContext.lock, h.mutex, if_neg hmutex]

/-- The fields of a timer are read through its node. -/
theorem Models.timerAt (h : Models p context) (ht : context.heap a = some timer) :
    p.timerAt (.timer a) = some (a, timer) := by
  rw [PointerContext.timerAt, h.heap, ht]
  rfl

end Writes

/-! ## Additions and deletions -/

section Calls

open PointerContext (delFrom delSlots)

theorem Models.hyTimerAdd (h : Models p context) (hwf : context.Wf) (timerConfig : HyTimerConfig)
    (ptr : Option Addr) :
    ∃ p', p.hyTimerAdd timerConfig ptr = some (p', (hyTimerAdd context timerConfig ptr).2) ∧
      Models p' (hyTimerAdd context timerConfig ptr).1 := by
  have hptr : (ptr.filter fun a => (p.heap a).isNone) = context.malloc ptr := by
    rw [h.heap]
    rfl
  rw [PointerContext.hyTimerAdd, hptr]
  cases hm : context.malloc ptr with
  | none =>
    rw [hyTimerAdd_of_malloc_none hm]
    exact ⟨p, rfl, h⟩
  | some a =>
    have hfree := TimerContext.Wf.of_malloc hm
    rw [hyTimerAdd_of_malloc hm, h.slotNum]
    have hslot : timerConfig.expires % context.slotNum < context.slotNum :=
      Nat.mod_lt _ hwf.slotNum_pos
    obtain ⟨p', hadd, h'⟩ := (h.malloc hfree ⟨timerConfig, _⟩).listAddTail
      (by simp) (hwf.not_mem hfree) hslot
    refine ⟨p', ?_, h'⟩
    dsimp only
    rw [hadd]
    rfl

/-- What a deletion does to the timer it finds. -/
def unlinkAndFree (p : PointerContext) (a : Addr) : Option (PointerContext × Bool) := do
  let p ← p.listDel (.timer a)
  let p ← p.lock
  return ((p.free a).unlock, true)

/-- The loop over one list finds the timer when it is in front of it. -/
theorem delFrom_eq (h : Models p context) (hi : i < context.slotNum) {n : Node} {l : List Addr}
    {fuel : ℕ} (hl : context.listHead i = pre ++ l) (hn : l ≠ [] → n = nodeAt i l.tail.head?)
    (hfuel : l.length ≤ fuel) :
    delFrom a (.slot i) fuel p (nodeAt i l.head?) n =
      if a ∈ l then unlinkAndFree p a else some (p, false) := by
  induction l generalizing fuel pre n with
  | nil => cases fuel <;> simp [delFrom, nodeAt]
  | cons b l ih =>
    obtain ⟨fuel, rfl⟩ : ∃ k, fuel = k + 1 := ⟨fuel - 1, by simp at hfuel; omega⟩
    obtain rfl : n = nodeAt i l.head? := hn (List.cons_ne_nil b l)
    rw [List.head?_cons, nodeAt, delFrom, if_neg (by simp)]
    by_cases hba : b = a
    · subst hba
      rw [if_pos rfl, if_pos List.mem_cons_self]
      rfl
    · rw [if_neg fun heq => hba (Node.timer.inj heq)]
      -- what is saved next is what comes after the saved node
      have hl' : context.listHead i = (pre ++ [b]) ++ l := by rw [hl, List.append_assoc]; rfl
      obtain ⟨n', hn', hnext⟩ := h.next_saved hi hl'
      rw [hn', Option.bind_eq_bind, Option.bind_some, ih hl' hnext (by simpa using hfuel)]
      have hmem : a ∈ b :: l ↔ a ∈ l := by simp [Ne.symm hba]
      simp only [hmem]

/-- The loop over the slots finds a timer that is on one of their lists. -/
theorem delSlots_eq (h : Models p context) {fuel : ℕ} {slots : List ℕ}
    (hslots : ∀ i ∈ slots, i < context.slotNum ∧ (context.listHead i).length ≤ fuel) :
    ((∀ i ∈ slots, a ∉ context.listHead i) → delSlots fuel a slots p = some (p, false)) ∧
      ∀ i ∈ slots, a ∈ context.listHead i → ∀ p', unlinkAndFree p a = some (p', true) →
        delSlots fuel a slots p = some (p', true) := by
  induction slots with
  | nil => exact ⟨fun _ => rfl, fun i hi => absurd hi List.not_mem_nil⟩
  | cons i slots ih =>
    obtain ⟨⟨hi, hfuel⟩, hslots⟩ := List.forall_mem_cons.mp hslots
    obtain ⟨hnone, hsome⟩ := ih hslots
    have hl : context.listHead i = [] ++ context.listHead i := rfl
    obtain ⟨n, hn, hnext⟩ := h.next_saved hi hl
    have hfrom := delFrom_eq (a := a) h hi hl hnext hfuel
    rw [delSlots, h.next_slot hi, Option.bind_eq_bind, Option.bind_some, hn, Option.bind_some,
      hfrom]
    constructor
    · intro hoff
      obtain ⟨hoffi, hoff⟩ := List.forall_mem_cons.mp hoff
      rw [if_neg hoffi]
      exact hnone hoff
    · intro j hj hmem p' hp'
      by_cases hmemi : a ∈ context.listHead i
      · rw [if_pos hmemi, hp']
        rfl
      · rw [if_neg hmemi]
        rcases List.mem_cons.mp hj with rfl | hj
        · exact absurd hmem hmemi
        · exact hsome j hj hmem p' hp'

/-- Some bound is enough for every list. -/
theorem eventually_rounds (context : TimerContext) :
    ∀ᶠ fuel in atTop, ∀ i ∈ List.range context.slotNum,
      i < context.slotNum ∧ (context.listHead i).length ≤ fuel := by
  have hlists : ∀ᶠ fuel in atTop, ∀ i ∈ Finset.range context.slotNum,
      (context.listHead i).length ≤ fuel :=
    (eventually_all_finset _).mpr fun i _ => eventually_ge_atTop _
  filter_upwards [hlists] with fuel hfuel i hi
  have hi := List.mem_range.mp hi
  exact ⟨hi, hfuel i (Finset.mem_range.mpr hi)⟩

/-- With enough rounds for every list, a deletion does what it does to the lists. -/
theorem Models.hyTimerDel (h : Models p context) (hwf : context.Wf)
    {timerHandle timerHandle' : Option Addr}
    (hdel : hyTimerDel context timerHandle = .ok (context', timerHandle')) :
    ∃ p', (∀ᶠ fuel in atTop, PointerContext.hyTimerDel fuel p timerHandle =
      some (p', timerHandle')) ∧ Models p' context' ∧ context'.Wf := by
  cases timerHandle with
  | none =>
    cases hdel
    exact ⟨p, .of_forall fun _ => rfl, h, hwf⟩
  | some a =>
    have hrounds := eventually_rounds context
    by_cases hlive : (context.heap a).isSome
    · have hmutex : context.mutex = false := by
        by_contra hlock
        rw [hyTimerDel_locked hwf (by simpa using hlock) hlive] at hdel
        cases hdel
      rw [hyTimerDel_of_live hwf hmutex hlive] at hdel
      cases hdel
      obtain ⟨i, hmem⟩ := (hwf.live_iff a).mp hlive
      have hi := hwf.slot_lt hmem
      obtain ⟨p₁, hunlink, h₁⟩ := h.listDel hi hmem
      have hoff : ∀ j, a ∉ (context.listDel a).listHead j := fun j hj =>
        (hwf.nodup j).not_mem_erase hj
      have hlock : p₁.lock = some { p₁ with mutex := true } := by
        rw [PointerContext.lock, h₁.mutex, listDel_mutex, hmutex]
        rfl
      have hboth : unlinkAndFree p a = some ((p₁.free a).unlock, true) := by
        rw [unlinkAndFree, hunlink, Option.bind_eq_bind, Option.bind_some, hlock]
        rfl
      refine ⟨(p₁.free a).unlock, ?_, ?_, hwf.remove a⟩
      · filter_upwards [hrounds] with fuel hfuel
        rw [PointerContext.hyTimerDel, h.slotNum]
        dsimp only
        rw [(delSlots_eq h hfuel).2 i (List.mem_range.mpr hi) hmem _ hboth]
        rfl
      · have hfreed := (h₁.free hlive hoff).setMutex false
        have hsame : { (context.listDel a).free a with mutex := false } =
            (context.listDel a).free a := by
          rw [← hmutex]
          rfl
        rwa [hsame] at hfreed
    · have hdead : context.heap a = none := Option.not_isSome_iff_eq_none.mp hlive
      rw [hyTimerDel_of_dead hwf hdead] at hdel
      cases hdel
      refine ⟨p, ?_, h, hwf⟩
      filter_upwards [hrounds] with fuel hfuel
      rw [PointerContext.hyTimerDel, h.slotNum]
      dsimp only
      rw [(delSlots_eq h hfuel).1 fun i _ => hwf.not_mem hdead i]
      rfl

end Calls

end HyUtils.TimerWheel
