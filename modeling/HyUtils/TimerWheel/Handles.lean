import HyUtils.TimerWheel.Ledger

/-!
# Handles that outlive their timers

A handle is the address of its timer. `HyTimerDel` clears the handle it deletes a timer through, but
the loop frees a single shot that has fired and leaves the handle as it is. When the allocator uses
the address again, the handle names another timer.

## Main definitions

* `DeletesItsTimer`: a deletion through a handle removes no timer but the one it was returned for
* `NotReused`: the address in the handle is not that of another live timer

## Main results

* `deletes_iff_notReused`: a deletion is right exactly when the address was not used again
-/

namespace HyUtils.TimerWheel

open Runs

variable {n : ℕ} {s s' : Ledger}

/-- A deletion through a handle returns, and removes no timer but the one the handle was returned
for. -/
def DeletesItsTimer (s : Ledger) : LedgerOp → Prop
  | .del i => ∃ s' out, ledgerStep s (.del i) = some (s', out) ∧
      ∀ a j, s.owner a = some j → s'.owner a ≠ some j → j = i
  | .add _ _ | .tick _ => True

/-- The address in the handle is not that of another live timer. -/
def NotReused (s : Ledger) : LedgerOp → Prop
  | .del i => ∀ a j, s.handle i = some a → s.owner a = some j → j = i
  | .add _ _ | .tick _ => True

/-- A deletion always returns. -/
theorem ledgerStep_del (h : Consistent n s) (i : ℕ) :
    ∃ s' out, ledgerStep s (.del i) = some (s', out) := by
  rcases hyTimerDel_cases h.idle.1 h.idle.2.1 (s.handle i) with ⟨-, hdel⟩ | ⟨_, -, -, hdel⟩
  all_goals
    rw [ledgerStep, hdel]
    exact ⟨_, _, rfl⟩

/-- **One deletion** is right exactly when the address was not used again. -/
theorem deletesItsTimer_iff (h : Consistent n s) (op : LedgerOp) :
    DeletesItsTimer s op ↔ NotReused s op := by
  cases op with
  | add | tick => exact Iff.rfl
  | del i =>
    obtain ⟨s', out, hs⟩ := ledgerStep_del h i
    -- The step is a function, so its result can be named.
    have hstep : DeletesItsTimer s (.del i) ↔
        ∀ a j, s.owner a = some j → s'.owner a ≠ some j → j = i := by
      constructor
      · rintro ⟨t, o, ht, hgone⟩
        obtain ⟨rfl, -⟩ := Prod.mk.inj (Option.some.inj (hs.symm.trans ht))
        exact hgone
      · exact fun hgone => ⟨s', out, hs, hgone⟩
    rw [hstep]
    rcases ledgerStep_cases h hs with ⟨⟨_, _, h'⟩, -⟩ | ⟨_, _, _, _, h', -⟩ |
      ⟨j, h', hdead, rfl, -⟩ | ⟨j, a, k, h', ha, hk, rfl, -⟩ | ⟨_, _, _, h', -⟩
    · cases h'
    · cases h'
    · -- nothing is removed, and no live timer is at the address
      obtain rfl := LedgerOp.del.inj h'
      refine iff_of_true (fun a j hj hne => absurd hj hne) fun a j ha hj => ?_
      rw [hdead a ha] at hj
      cases hj
    · -- the timer at the address is removed, whichever it is
      obtain rfl := LedgerOp.del.inj h'
      have howner := h.settle_remove_owner a
      constructor
      · intro hgone b j hb hj
        obtain rfl := Option.some.inj (ha.symm.trans hb)
        refine hgone a j hj ?_
        dsimp only
        rw [howner, if_pos rfl]
        exact Option.some_ne_none j |>.symm
      · intro hnot b j hj hne
        dsimp only at hne
        rw [howner] at hne
        split_ifs at hne with hb
        · subst hb
          exact hnot b j ha hj
        · exact absurd hj hne
    · cases h'

/-- **Deletion through handles**: every `HyTimerDel` of a run returns and removes no timer but the
one its handle was returned for, exactly when no handle is passed to it whose address is that of
another live timer. -/
theorem deletes_iff_notReused {slotNum : ℕ} {contextOk listOk : Bool} {context : TimerContext}
    (hslot : 1 ≤ slotNum) (hcreate : hyTimerCreate slotNum contextOk listOk = some context)
    (ops : List LedgerOp) :
    EachStep ledgerStep DeletesItsTimer (Ledger.start context) ops ↔
      EachStep ledgerStep NotReused (Ledger.start context) ops :=
  eachStep_congr (Consistent slotNum) (fun _ _ _ _ h hs => ledgerStep_consistent h hs)
    (fun _ op h => deletesItsTimer_iff h op) (start_consistent hslot hcreate)

/-- The handle of a single shot that has fired deletes the timer that is now at its address. -/
theorem deletion_of_reused_address :
    (hyTimerCreate 1 true true).bind (fun context =>
      (run ledgerStep (Ledger.start context) [.add ⟨0, 0, some 0, 0⟩ (some 100), .tick 1,
        .add ⟨5, 0, some 0, 0⟩ (some 100), .del 0]).map Prod.snd) =
      some [{ added := some 0 }, { called := [0], freed := [0], isTick := true },
        { added := some 1 }, { deleted := some 1 }] := rfl

theorem deletes_iff_notReused_own :
    EachStep ledgerStep DeletesItsTimer
        (Ledger.start ⟨1, 0, false, fun _ => [], fun _ => none⟩)
        [.add ⟨5, 0, some 0, 0⟩ (some 100), .del 0] ↔
      EachStep ledgerStep NotReused (Ledger.start ⟨1, 0, false, fun _ => [], fun _ => none⟩)
        [.add ⟨5, 0, some 0, 0⟩ (some 100), .del 0] :=
  deletes_iff_notReused (by decide) (show hyTimerCreate 1 true true = some _ from rfl) _

end HyUtils.TimerWheel
