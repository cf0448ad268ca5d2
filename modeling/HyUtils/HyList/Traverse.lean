import HyUtils.HyList.Spec

/-!
# Loops over a list

## Main results

* `listForEach_ring`, `listForEachPrev_ring`: the loops visit the entries in order, or in reverse
* `forEachSafe_ring`: the safe loop visits each entry once, in order, whatever its body makes of the
  entry it is at
-/

namespace HyUtils.HyList

open Rings

variable {α : Type} [DecidableEq α] {m : Cells α} {a head pos : α} {l : List α} {fuel : ℕ}

theorem forEachFrom_eq {step : α → Option α}
    (hchain : (l ++ [head]).IsChain fun x y => step x = some y) (hhead : head ∉ l)
    (hfuel : l.length ≤ fuel) : forEachFrom step head fuel (l.headD head) = some l := by
  induction l generalizing fuel with
  | nil => cases fuel <;> simp [forEachFrom]
  | cons x l ih =>
    obtain ⟨hne, hhead⟩ := not_or.mp (List.mem_cons.not.mp hhead)
    obtain ⟨fuel, rfl⟩ : ∃ n, fuel = n + 1 := ⟨fuel - 1, by simp at hfuel; omega⟩
    have hnext : step x = some (l.headD head) := by
      cases l with
      | nil => exact (List.isChain_cons_cons.mp hchain).1
      | cons y l => exact (List.isChain_cons_cons.mp hchain).1
    have hrest := ih hchain.tail hhead (by simpa using hfuel)
    rw [List.headD_cons, forEachFrom, if_neg (Ne.symm hne), hnext]
    simp only [Option.bind_eq_bind, Option.bind_some, hrest]
    rfl

/-- **`list_for_each`** visits the entries in order. -/
theorem listForEach_ring (h : Ring m (a :: l)) (hfuel : l.length ≤ fuel) :
    listForEach fuel m a = some l := by
  rw [listForEach, h.next_eq]
  exact forEachFrom_eq (h.linked_tail.imp fun _ _ htied => htied.1) (List.nodup_cons.mp h.nodup).1
    hfuel

/-- **`list_for_each_prev`** visits them in reverse. -/
theorem listForEachPrev_ring (h : Ring m (a :: l)) (hfuel : l.length ≤ fuel) :
    listForEachPrev fuel m a = some l.reverse := by
  have hlinked : Linked m (a :: l) := h.linked.left_of_append
  have hchain : (l.reverse ++ [a]).IsChain fun x y => m.prev x = some y := by
    rw [← List.reverse_cons, List.isChain_reverse]
    exact hlinked.imp fun _ _ htied => htied.2
  have hlast : l.getLastD a = l.reverse.headD a := by simp
  rw [listForEachPrev, h.prev_eq, hlast]
  exact forEachFrom_eq hchain (by simpa using (List.nodup_cons.mp h.nodup).1) (by simpa using hfuel)

section Safe

variable {σ : Type} {cells : σ → Cells α} {body : σ → α → Option σ}
  {I : σ → List α → List α → Prop}

/-- **The safe loop** from an entry on. `I s kept rest` says that the list is `kept ++ rest` and
that `rest` is still to be visited; the body may take its entry off the list, or keep it. -/
theorem forEachSafeFrom_eq (hring : ∀ s kept rest, I s kept rest →
      Ring (cells s) (head :: (kept ++ rest)))
    (hbody : ∀ s kept pos rest, I s kept (pos :: rest) →
      ∃ s' kept', body s pos = some s' ∧ I s' kept' rest)
    {s : σ} {kept : List α} {n : α} (hI : I s kept l) (hfuel : l.length ≤ fuel)
    (hn : l ≠ [] → n = l.tail.headD head) :
    ∃ s' kept', forEachSafeFrom cells body head fuel s (l.headD head) n = some (s', l) ∧
      I s' kept' [] := by
  induction l generalizing fuel s kept n with
  | nil => exact ⟨s, kept, by cases fuel <;> simp [forEachSafeFrom], hI⟩
  | cons x l ih =>
    obtain ⟨fuel, rfl⟩ : ∃ n, fuel = n + 1 := ⟨fuel - 1, by simp at hfuel; omega⟩
    obtain rfl : n = l.headD head := hn (List.cons_ne_nil x l)
    have hx : x ≠ head := by
      rintro rfl
      exact (List.nodup_cons.mp (hring s kept _ hI).nodup).1 (by simp)
    obtain ⟨s₁, kept₁, hrun, hI₁⟩ := hbody s kept x l hI
    have hring₁ := hring s₁ kept₁ l hI₁
    -- what is saved next is what comes after the saved node then
    obtain ⟨n', hn', hnext⟩ : ∃ n', (cells s₁).next (l.headD head) = some n' ∧
        (l ≠ [] → n' = l.tail.headD head) := by
      cases l with
      | nil => exact ⟨_, hring₁.next_eq, fun hnil => absurd rfl hnil⟩
      | cons y l =>
        have hy : Ring (cells s₁) (y :: (l ++ head :: kept₁)) := by
          simpa using hring₁.rotate (head :: kept₁) (y :: l)
        refine ⟨_, hy.next_eq, fun _ => ?_⟩
        cases l <;> rfl
    obtain ⟨s', kept', hrest, hI'⟩ := ih hI₁ (by simpa using hfuel) hnext
    refine ⟨s', kept', ?_, hI'⟩
    rw [List.headD_cons, forEachSafeFrom, if_neg hx, hrun]
    simp only [Option.bind_eq_bind, Option.bind_some, hn', hrest]
    rfl

/-- **The safe loop** visits each entry once, in order. -/
theorem forEachSafe_ring (hring : ∀ s kept rest, I s kept rest →
      Ring (cells s) (head :: (kept ++ rest)))
    (hbody : ∀ s kept pos rest, I s kept (pos :: rest) →
      ∃ s' kept', body s pos = some s' ∧ I s' kept' rest)
    {s : σ} (hI : I s [] l) (hfuel : l.length ≤ fuel) :
    ∃ s' kept', listForEachSafe cells body fuel s head = some (s', l) ∧ I s' kept' [] := by
  have hl := hring s [] l hI
  rw [List.nil_append] at hl
  obtain ⟨n, hn, hnext⟩ : ∃ n, (cells s).next (l.headD head) = some n ∧
      (l ≠ [] → n = l.tail.headD head) := by
    cases l with
    | nil => exact ⟨_, hl.next_eq, fun hnil => absurd rfl hnil⟩
    | cons y l =>
      have hy : Ring (cells s) (y :: (l ++ [head])) := by simpa using hl.rotate [head] (y :: l)
      refine ⟨_, hy.next_eq, fun _ => ?_⟩
      cases l <;> rfl
  obtain ⟨s', kept', hrun, hI'⟩ := forEachSafeFrom_eq hring hbody hI hfuel hnext
  refine ⟨s', kept', ?_, hI'⟩
  rw [listForEachSafe, hl.next_eq]
  simp only [Option.bind_eq_bind, Option.bind_some, hn, hrun]

end Safe

end HyUtils.HyList
