import HyUtils.TimerWheel.Delay

/-!
# Timers and their handles

An address names one timer after another, as the allocator uses it again. A ledger keeps beside the
wheel which timer is at each address, timers being numbered as they are added, and the variable in
which the owner of each timer keeps its handle. The numbers are not in the source: they say which
timer a call is about.

## Main definitions

* `Ledger`: the wheel, with the timer at each address and the handle of each timer
* `ledgerStep`: the module with its owners as a component, which deletes a timer through its handle

## Main results

* `ledgerStep_cases`: what a step can be
* `ledgerStep_consistent`: the ledger stays in step with the heap
* `Consistent.del`: a live timer is deleted through its handle
-/

namespace HyUtils.TimerWheel

open Runs

/-- The wheel, the number of timers added, the timer at each address, the configuration each timer
was added with, and the handle variable of each timer. -/
structure Ledger where
  context : TimerContext
  added : ℕ
  owner : Addr → Option ℕ
  config : ℕ → HyTimerConfig
  handle : ℕ → Option Addr

/-- The calls, a timer being deleted through its handle, and the ticks. -/
inductive LedgerOp
  | add (timerConfig : HyTimerConfig) (ptr : Option Addr)
  | del (i : ℕ)
  | tick (fuel : ℕ)

/-- The timer a step adds, the one it deletes, and those a tick calls and frees. -/
structure LedgerOut where
  added : Option ℕ := none
  deleted : Option ℕ := none
  called : List ℕ := []
  freed : List ℕ := []
  isTick : Bool := false
  deriving DecidableEq

/-- The ledger after a step that adds nothing: the timers no longer in the heap are gone. -/
def Ledger.settle (s : Ledger) (context : TimerContext) : Ledger :=
  { s with context, owner := fun a => if (context.heap a).isSome then s.owner a else none }

/-- One step. -/
def ledgerStep (s : Ledger) : LedgerOp → Option (Ledger × LedgerOut)
  | .add timerConfig ptr =>
    match hyTimerAdd s.context timerConfig ptr with
    | (context, none) => some ({ s with context }, {})
    | (context, some a) =>
      some ({
        context
        added := s.added + 1
        owner := Function.update s.owner a (some s.added)
        config := Function.update s.config s.added timerConfig
        handle := Function.update s.handle s.added (some a) }, { added := some s.added })
  | .del i => do
    let (context, timerHandle) ← (hyTimerDel s.context (s.handle i)).toOption
    return ({ s.settle context with handle := Function.update s.handle i timerHandle },
      { deleted := (s.handle i).bind fun a => if (context.heap a).isSome then none else s.owner a })
  | .tick fuel => do
    let (context, calls) ← tick s.context (List.replicate fuel [])
    let gone := (s.context.listHead s.context.curSlot).filter fun a => (context.heap a).isNone
    return (s.settle context,
      { called := calls.filterMap s.owner, freed := gone.filterMap s.owner, isTick := true })

/-- A wheel nothing was added to. -/
def Ledger.start (context : TimerContext) : Ledger :=
  { context, added := 0, owner := fun _ => none, config := fun _ => ⟨0, 0, none, 0⟩
    handle := fun _ => none }

/-- The ledger is in step with the heap of a wheel of `n` slots, and the owners of the live timers
have their handles. -/
structure Consistent (n : ℕ) (s : Ledger) : Prop where
  idle : Idle n s.context
  live : ∀ a, (s.owner a).isSome ↔ (s.context.heap a).isSome
  inj : ∀ {a b i}, s.owner a = some i → s.owner b = some i → a = b
  lt : ∀ {a i}, s.owner a = some i → i < s.added
  config_eq : ∀ {a i timer}, s.owner a = some i → s.context.heap a = some timer →
    timer.timerConfig = s.config i
  handle_eq : ∀ {a i}, s.owner a = some i → s.handle i = some a

variable {n : ℕ} {s s' : Ledger} {a : Addr} {i : ℕ} {out : LedgerOut}

theorem start_consistent {slotNum : ℕ} {contextOk listOk : Bool} {context : TimerContext}
    (h : 1 ≤ slotNum) (hcreate : hyTimerCreate slotNum contextOk listOk = some context) :
    Consistent slotNum (Ledger.start context) := by
  obtain ⟨hwf, hfree, hn, hheap⟩ := hyTimerCreate_wf h hcreate
  exact ⟨⟨hwf, hfree, hn⟩, fun a => by simp [Ledger.start, hheap], nofun, nofun, nofun, nofun⟩

namespace Consistent

theorem owner_eq_none (h : Consistent n s) (ha : s.context.heap a = none) : s.owner a = none := by
  rw [← Option.not_isSome_iff_eq_none, h.live, ha]
  exact Bool.false_ne_true

/-- The timer at an address and its slot. -/
theorem at_of_owner (h : Consistent n s) (ha : s.owner a = some i) :
    ∃ timer slot, At s.context a timer slot ∧ timer.timerConfig = s.config i := by
  have hlive := (h.live a).mp (by rw [ha]; rfl)
  obtain ⟨timer, ht⟩ := Option.isSome_iff_exists.mp hlive
  obtain ⟨slot, hslot⟩ := (h.idle.1.live_iff a).mp hlive
  exact ⟨timer, slot, ⟨ht, hslot⟩, h.config_eq ha ht⟩

theorem owner_of_live (h : Consistent n s) (ha : (s.context.heap a).isSome) :
    ∃ i, s.owner a = some i := Option.isSome_iff_exists.mp ((h.live a).mpr ha)

/-- Timers that keep their configurations, none appearing: the ledger follows the heap. -/
theorem settle (h : Consistent n s) {context : TimerContext} (hidle : Idle n context)
    (hconfig : ∀ a t, context.heap a = some t →
      ∃ timer, s.context.heap a = some timer ∧ t.timerConfig = timer.timerConfig) :
    Consistent n (s.settle context) := by
  have howner : ∀ {a i}, (s.settle context).owner a = some i →
      s.owner a = some i ∧ (context.heap a).isSome := by
    intro a i ha
    rw [Ledger.settle] at ha
    dsimp only at ha
    split_ifs at ha with hlive
    exact ⟨ha, hlive⟩
  refine ⟨hidle, fun a => ⟨fun ha => ?_, fun ha => ?_⟩,
    fun ha hb => h.inj (howner ha).1 (howner hb).1, fun ha => h.lt (howner ha).1,
    fun {a i t} ha ht => ?_, fun ha => h.handle_eq (howner ha).1⟩
  · obtain ⟨i, hi⟩ := Option.isSome_iff_exists.mp ha
    exact (howner hi).2
  · obtain ⟨t, ht⟩ := Option.isSome_iff_exists.mp ha
    obtain ⟨timer, htimer, -⟩ := hconfig a t ht
    have hlive : (context.heap a).isSome := ha
    change (if (context.heap a).isSome then s.owner a else none).isSome
    rw [if_pos hlive, h.live, htimer]
    rfl
  · obtain ⟨timer, htimer, hc⟩ := hconfig a t ht
    rw [hc]
    exact h.config_eq (howner ha).1 htimer

theorem settle_owner (h : Consistent n s) {context : TimerContext} (p : Addr → Prop)
    [DecidablePred p] (hgone : ∀ a, p a → context.heap a = none)
    (hkept : ∀ a, ¬ p a → context.heap a = s.context.heap a) (a : Addr) :
    (s.settle context).owner a = if p a then none else s.owner a := by
  change (if (context.heap a).isSome then s.owner a else none) = _
  by_cases hp : p a
  · rw [hgone a hp, if_pos hp]
    rfl
  · rw [if_neg hp, hkept a hp]
    by_cases hlive : (s.context.heap a).isSome
    · rw [if_pos hlive]
    · rw [if_neg hlive, h.owner_eq_none (Option.not_isSome_iff_eq_none.mp hlive)]

/-- A timer deleted is gone, and no other is. -/
theorem settle_remove_owner (h : Consistent n s) (a b : Addr) :
    (s.settle ((s.context.listDel a).free a)).owner b = if b = a then none else s.owner b := by
  refine h.settle_owner (· = a) ?_ (fun b hb => free_heap_of_ne _ hb) b
  rintro _ rfl
  exact free_heap_self ..

/-- While the heap stays as it is, so does the ledger. -/
theorem settle_self (h : Consistent n s) : s.settle s.context = s := by
  obtain ⟨context, added, owner, config, handle⟩ := s
  simp only [Ledger.settle, Ledger.mk.injEq, true_and, and_true]
  funext a
  exact h.settle_owner (fun _ => False) (fun _ h => h.elim) (fun _ _ => rfl) a

end Consistent

/-- **What a step can be.** -/
theorem ledgerStep_cases {op : LedgerOp} (h : Consistent n s)
    (hs : ledgerStep s op = some (s', out)) :
    ((∃ timerConfig ptr, op = .add timerConfig ptr) ∧ s' = s ∧ out = {}) ∨
      (∃ timerConfig ptr a context, op = .add timerConfig ptr ∧
        hyTimerAdd s.context timerConfig ptr = (context, some a) ∧
        s' = {
          context
          added := s.added + 1
          owner := Function.update s.owner a (some s.added)
          config := Function.update s.config s.added timerConfig
          handle := Function.update s.handle s.added (some a) } ∧ out = { added := some s.added }) ∨
      (∃ j, op = .del j ∧ (∀ a, s.handle j = some a → s.owner a = none) ∧ s' = s ∧ out = {}) ∨
      (∃ j a k, op = .del j ∧ s.handle j = some a ∧ s.owner a = some k ∧
        s' = { s.settle ((s.context.listDel a).free a) with
          handle := Function.update s.handle j none } ∧ out = { deleted := some k }) ∨
      ∃ fuel calls context₁, op = .tick fuel ∧
        Sweep s.context (s.context.listHead s.context.curSlot) context₁ calls ∧ context₁.Wf ∧
        context₁.mutex = false ∧ s' = s.settle (advance context₁) ∧
        out = {
          called := calls.filterMap s.owner
          freed := ((s.context.listHead s.context.curSlot).filter fun a =>
            (context₁.heap a).isNone).filterMap s.owner
          isTick := true } := by
  obtain ⟨hwf, hfree, -⟩ := h.idle
  cases op with
  | add timerConfig ptr =>
    rw [ledgerStep] at hs
    rcases hadd : hyTimerAdd s.context timerConfig ptr with ⟨context, _ | a⟩
    · -- no memory: nothing is added
      rw [hadd] at hs
      obtain ⟨rfl, rfl⟩ := Prod.mk.inj (Option.some.inj hs)
      obtain rfl := eq_of_hyTimerAdd_none hadd
      exact .inl ⟨⟨timerConfig, ptr, rfl⟩, rfl, rfl⟩
    · rw [hadd] at hs
      obtain ⟨rfl, rfl⟩ := Prod.mk.inj (Option.some.inj hs)
      exact .inr (.inl ⟨timerConfig, ptr, a, context, rfl, hadd, rfl, rfl⟩)
  | del j =>
    rw [ledgerStep] at hs
    rcases hyTimerDel_cases hwf hfree (s.handle j) with ⟨hdead, hdel⟩ | ⟨a, ha, hlive, hdel⟩
    · -- no live timer at the address: the call does nothing
      have howner : ∀ a, s.handle j = some a → s.owner a = none := fun a ha =>
        h.owner_eq_none (hdead a ha)
      rw [hdel] at hs
      obtain ⟨rfl, rfl⟩ := Prod.mk.inj (Option.some.inj hs)
      refine .inr (.inr (.inl ⟨j, rfl, howner, ?_, ?_⟩))
      · rw [h.settle_self, Function.update_eq_self]
      · cases hh : s.handle j with
        | none => rfl
        | some a =>
          simp only [Option.bind_some, howner a hh, ite_self]
    · -- some timer is at the address, not necessarily the one the handle was returned for
      rw [hdel] at hs
      obtain ⟨rfl, rfl⟩ := Prod.mk.inj (Option.some.inj hs)
      obtain ⟨k, hk⟩ := h.owner_of_live hlive
      refine .inr (.inr (.inr (.inl ⟨j, a, k, rfl, ha, hk, rfl, ?_⟩)))
      rw [ha]
      simp [hk]
  | tick fuel =>
    obtain ⟨⟨context, calls⟩, htick, heq⟩ := Option.bind_eq_some_iff.mp hs
    obtain ⟨rfl, rfl⟩ := Prod.mk.inj (Option.some.inj heq)
    obtain ⟨context₁, hsweep, hwf₁, hfree₁, rfl⟩ := tick_sweep hwf hfree htick
    exact .inr (.inr (.inr (.inr ⟨fuel, calls, context₁, rfl, hsweep, hwf₁, hfree₁, rfl, rfl⟩)))

/-- **The ledger stays in step with the heap.** -/
theorem ledgerStep_consistent {op : LedgerOp} (h : Consistent n s)
    (hs : ledgerStep s op = some (s', out)) : Consistent n s' := by
  rcases ledgerStep_cases h hs with ⟨-, rfl, -⟩ | ⟨timerConfig, ptr, a, context, -, hadd, rfl, -⟩ |
    ⟨_, -, -, rfl, -⟩ | ⟨j, a, _, -, ha, -, rfl, -⟩ | ⟨_, _, c₁, -, hsweep, hwf₁, hfree₁, rfl, -⟩
  · exact h
  · obtain ⟨hnone, hat, hother⟩ := hyTimerAdd_some hadd
    have hidle : Idle n context := timerStep_idle h.idle
      (show timerStep s.context (.add timerConfig ptr) = some (context, _) by rw [timerStep, hadd])
    -- The new number is at the new address, and nowhere else.
    have howner : ∀ {b i}, Function.update s.owner a (some s.added) b = some i →
        b = a ∧ i = s.added ∨ b ≠ a ∧ s.owner b = some i := by
      intro b i hb
      by_cases hba : b = a
      · subst hba
        rw [Function.update_self] at hb
        exact .inl ⟨rfl, (Option.some.inj hb).symm⟩
      · rw [Function.update_of_ne hba] at hb
        exact .inr ⟨hba, hb⟩
    refine ⟨hidle, fun b => ?_, fun {b c i} hb hc => ?_, fun {b i} hb => ?_,
      fun {b i t} hb ht => ?_, fun {b i} hb => ?_⟩
    · by_cases hba : b = a
      · subst hba
        simp [hat.1]
      · dsimp only
        rw [Function.update_of_ne hba, hother b hba]
        exact h.live b
    · rcases howner hb with ⟨hba, hi⟩ | ⟨-, hb'⟩ <;> rcases howner hc with ⟨hca, hi'⟩ | ⟨-, hc'⟩
      · rw [hba, hca]
      · exact absurd (hi ▸ h.lt hc') (Nat.lt_irrefl _)
      · exact absurd (hi' ▸ h.lt hb') (Nat.lt_irrefl _)
      · exact h.inj hb' hc'
    · rcases howner hb with ⟨-, rfl⟩ | ⟨-, hb'⟩
      · exact Nat.lt_succ_self _
      · exact Nat.lt_succ_of_lt (h.lt hb')
    · change t.timerConfig = Function.update s.config s.added timerConfig i
      rcases howner hb with ⟨rfl, rfl⟩ | ⟨hba, hb'⟩
      · obtain rfl := Option.some.inj (hat.1.symm.trans ht)
        rw [Function.update_self]
      · rw [Function.update_of_ne (Nat.ne_of_lt (h.lt hb'))]
        exact h.config_eq hb' ((hother b hba).symm.trans ht)
    · rcases howner hb with ⟨rfl, rfl⟩ | ⟨-, hb'⟩
      · exact Function.update_self ..
      · exact (Function.update_of_ne (Nat.ne_of_lt (h.lt hb')) ..).trans (h.handle_eq hb')
  · exact h
  · have hidle : Idle n ((s.context.listDel a).free a) :=
      ⟨h.idle.1.remove a, h.idle.2.1, h.idle.2.2⟩
    have h' := h.settle hidle fun b t ht => ?_
    · refine ⟨h'.idle, h'.live, h'.inj, h'.lt, h'.config_eq, fun {b i} hb => ?_⟩
      -- the handle that is cleared is not that of another live timer
      have hb' : s.owner b = some i ∧ b ≠ a := by
        rw [h.settle_remove_owner] at hb
        split_ifs at hb with hba
        exact ⟨hb, hba⟩
      refine (Function.update_of_ne ?_ _ _).trans (h.handle_eq hb'.1)
      rintro rfl
      exact hb'.2 (Option.some.inj ((h.handle_eq hb'.1).symm.trans ha))
    · by_cases hba : b = a
      · subst hba
        rw [free_heap_self] at ht
        cases ht
      · rw [free_heap_of_ne _ hba] at ht
        exact ⟨t, ht, rfl⟩
  · exact h.settle ⟨advance_wf hwf₁, hfree₁, hsweep.slotNum_curSlot.1.trans h.idle.2.2⟩
      fun b t ht => hsweep.config ht

/-- **A live timer is deleted** through its handle: it leaves its slot list and the heap. -/
theorem Consistent.del (h : Consistent n s) (ha : s.owner a = some i) :
    ∃ s', ledgerStep s (.del i) = some (s', { deleted := some i }) ∧
      s'.context.heap a = none ∧ ∀ j, a ∉ s'.context.listHead j := by
  obtain ⟨timer, slot, hat, -⟩ := h.at_of_owner ha
  rcases hyTimerDel_cases h.idle.1 h.idle.2.1 (s.handle i) with ⟨hdead, -⟩ | ⟨b, hb, -, hdel⟩
  · -- the handle is the address of the timer, which is live
    have hnone := hdead a (h.handle_eq ha)
    rw [hat.1] at hnone
    cases hnone
  · obtain rfl := Option.some.inj (hb.symm.trans (h.handle_eq ha))
    have hgone : ((s.context.listDel b).free b).heap b = none := free_heap_self ..
    refine ⟨{ s.settle ((s.context.listDel b).free b) with
      handle := Function.update s.handle i none }, ?_, hgone,
      fun j => (h.idle.1.nodup j).not_mem_erase⟩
    have hdeleted : ((s.handle i).bind fun a =>
        if (((s.context.listDel b).free b).heap a).isSome then none else s.owner a) = some i := by
      rw [hb, Option.bind_some, hgone]
      exact ha
    rw [← hdeleted, ledgerStep, hdel]
    rfl

end HyUtils.TimerWheel
