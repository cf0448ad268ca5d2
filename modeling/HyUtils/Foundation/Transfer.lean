import Mathlib.Algebra.Order.BigOperators.Group.List
import Mathlib.Algebra.Order.Ring.Nat

/-!
# Transfers by repeated calls

A transfer of `n` units repeats a call that may move fewer than it is asked for, until all are moved
or an answer stops it. The answers are a list; a transfer that has used them up is pending.

## Main definitions

* `Outcome`: all moved, stopped by an answer, or pending
* `transfer stops amount as n`: the answers taken and the outcome
* `Within amount as n`: no answer moves more than was asked for
* `Taken ends amount as n taken`: the answers up to the end of a transfer

## Main results

* `taken_transfer`: the answers a transfer takes are these
* `moved_taken_le`, `transfer_done_iff`: what is moved, and when it is everything
* `transfer_eq_stopped_iff`: the answer that stops a transfer is the first that can, if the answers
  before it have not moved everything
* `transfer_pending_iff`: a transfer is pending when its answers are used up
-/

namespace Transfer

variable {α ρ : Type*}

/-- How a transfer ends. -/
inductive Outcome (ρ : Type*)
  | done
  | stopped (r : ρ)
  | pending

/-- The answers taken in moving `n` units, and the outcome. -/
def transfer (stops : α → Option ρ) (amount : α → ℕ) : List α → ℕ → List α × Outcome ρ
  | _, 0 => ([], .done)
  | [], _ + 1 => ([], .pending)
  | a :: as, n + 1 =>
    match stops a with
    | some r => ([], .stopped r)
    | none =>
      let t := transfer stops amount as (n + 1 - amount a)
      (a :: t.1, t.2)

/-- No answer moves more than was asked for. -/
def Within (amount : α → ℕ) : List α → ℕ → Prop
  | [], _ => True
  | a :: as, n => amount a ≤ n ∧ Within amount as (n - amount a)

variable {stops : α → Option ρ} {amount : α → ℕ}

@[simp] theorem transfer_zero (as : List α) : transfer stops amount as 0 = ([], .done) := by
  cases as <;> rfl

theorem transfer_nil {n : ℕ} (hn : n ≠ 0) :
    transfer stops amount [] n = ([], .pending) := by
  obtain ⟨n, rfl⟩ := Nat.exists_eq_succ_of_ne_zero hn
  rfl

theorem transfer_cons_of_some {a : α} {as : List α} {n : ℕ} {r : ρ} (hn : n ≠ 0)
    (h : stops a = some r) : transfer stops amount (a :: as) n = ([], .stopped r) := by
  obtain ⟨n, rfl⟩ := Nat.exists_eq_succ_of_ne_zero hn
  simp [transfer, h]

theorem transfer_cons_of_none {a : α} {as : List α} {n : ℕ} (hn : n ≠ 0) (h : stops a = none) :
    transfer stops amount (a :: as) n =
      (a :: (transfer stops amount as (n - amount a)).1,
        (transfer stops amount as (n - amount a)).2) := by
  obtain ⟨n, rfl⟩ := Nat.exists_eq_succ_of_ne_zero hn
  simp [transfer, h]

/-- The number of units moved by the answers taken. -/
def moved (amount : α → ℕ) (as : List α) : ℕ := (as.map amount).sum

@[simp] theorem moved_nil : moved amount [] = 0 := rfl

@[simp] theorem moved_cons (a : α) (as : List α) :
    moved amount (a :: as) = amount a + moved amount as := by
  simp [moved]

/-- The answers taken in moving `n` units: none of them ends the transfer, and none is taken once
everything is moved; the next one, if there is one and it is still needed, ends it. -/
structure Taken (ends : α → Prop) (amount : α → ℕ) (as : List α) (n : ℕ) (taken : List α) :
    Prop where
  isPrefix : taken <+: as
  goesOn : ∀ before a after, taken = before ++ a :: after → ¬ends a ∧ moved amount before < n
  ended : moved amount taken = n ∨ taken = as ∨ ∃ a after, as = taken ++ a :: after ∧ ends a

theorem Taken.not_ends {ends : α → Prop} {as taken : List α} {n : ℕ} {a : α}
    (h : Taken ends amount as n taken) (ha : a ∈ taken) : ¬ends a := by
  obtain ⟨before, after, htaken⟩ := List.append_of_mem ha
  exact (h.goesOn before a after htaken).1

theorem moved_taken_le {as : List α} {n : ℕ} (h : Within amount as n) :
    moved amount (transfer stops amount as n).1 ≤ n := by
  induction as generalizing n with
  | nil => cases n <;> simp [transfer]
  | cons a as ih =>
    rcases Nat.eq_zero_or_pos n with rfl | hn
    · simp
    obtain ⟨ha, has⟩ := h
    cases hs : stops a with
    | some r => simp [transfer_cons_of_some hn.ne' hs]
    | none =>
      have hrest := ih has
      rw [transfer_cons_of_none hn.ne' hs, moved_cons]
      omega

/-- **A transfer is done** exactly when it has moved everything. -/
theorem transfer_done_iff {as : List α} {n : ℕ} (h : Within amount as n) :
    (transfer stops amount as n).2 = .done ↔
      moved amount (transfer stops amount as n).1 = n := by
  induction as generalizing n with
  | nil => cases n <;> simp [transfer]
  | cons a as ih =>
    rcases Nat.eq_zero_or_pos n with rfl | hn
    · simp
    obtain ⟨ha, has⟩ := h
    cases hs : stops a with
    | some r => simp [transfer_cons_of_some hn.ne' hs, hn.ne]
    | none =>
      rw [transfer_cons_of_none hn.ne' hs]
      dsimp only
      rw [moved_cons, ih has]
      omega

/-- **The answers a transfer takes** are those up to its end. -/
theorem taken_transfer {ends : α → Prop} (hends : ∀ a, stops a = none ↔ ¬ends a) {as : List α}
    {n : ℕ} (h : Within amount as n) :
    Taken ends amount as n (transfer stops amount as n).1 := by
  induction as generalizing n with
  | nil =>
    have hnil : (transfer stops amount [] n).1 = [] := by cases n <;> rfl
    rw [hnil]
    exact ⟨List.nil_prefix, by simp, .inr (.inl rfl)⟩
  | cons a as ih =>
    rcases Nat.eq_zero_or_pos n with rfl | hn
    · rw [transfer_zero]
      exact ⟨List.nil_prefix, by simp, .inl rfl⟩
    obtain ⟨ha, has⟩ := h
    cases hs : stops a with
    | some r =>
      have hend : ends a := by
        by_contra hgo
        rw [(hends a).mpr hgo] at hs
        cases hs
      rw [transfer_cons_of_some hn.ne' hs]
      exact ⟨List.nil_prefix, by simp, .inr (.inr ⟨a, as, rfl, hend⟩)⟩
    | none =>
      obtain ⟨hpre, hgo, hended⟩ := ih has
      rw [transfer_cons_of_none hn.ne' hs]
      refine ⟨List.cons_prefix_cons.mpr ⟨rfl, hpre⟩, ?_, ?_⟩
      · intro before b after heq
        cases before with
        | nil =>
          obtain ⟨rfl, -⟩ := List.cons.inj heq
          exact ⟨(hends _).mp hs, hn⟩
        | cons c before =>
          obtain ⟨rfl, heq'⟩ := List.cons.inj heq
          obtain ⟨hb, hlt⟩ := hgo before b after heq'
          rw [moved_cons]
          exact ⟨hb, by omega⟩
      · rw [moved_cons]
        rcases hended with hall | hall | ⟨b, after, hb, hend⟩
        · exact .inl (by omega)
        · exact .inr (.inl (congrArg (a :: ·) hall))
        · exact .inr (.inr ⟨b, after, congrArg (a :: ·) hb, hend⟩)

/-- **A transfer is pending** when its answers are used up and have not moved everything. -/
theorem transfer_pending_iff {as : List α} {n : ℕ} (h : Within amount as n) :
    (transfer stops amount as n).2 = .pending ↔
      (transfer stops amount as n).1 = as ∧
        moved amount (transfer stops amount as n).1 ≠ n := by
  induction as generalizing n with
  | nil => cases n <;> simp [transfer]
  | cons a as ih =>
    rcases Nat.eq_zero_or_pos n with rfl | hn
    · simp
    obtain ⟨ha, has⟩ := h
    cases hs : stops a with
    | some r => simp [transfer_cons_of_some hn.ne' hs]
    | none =>
      rw [transfer_cons_of_none hn.ne' hs]
      dsimp only
      rw [ih has, List.cons_inj_right, moved_cons]
      refine and_congr_right fun _ => not_congr ?_
      omega

/-- **The answer that stops a transfer** is the first that can. -/
theorem transfer_eq_stopped_iff {as taken : List α} {n : ℕ} {r : ρ} :
    transfer stops amount as n = (taken, .stopped r) ↔
      ∃ a after, as = taken ++ a :: after ∧ stops a = some r ∧ (∀ b ∈ taken, stops b = none) ∧
        moved amount taken < n := by
  induction as generalizing n taken with
  | nil => cases n <;> simp [transfer]
  | cons a as ih =>
    rcases Nat.eq_zero_or_pos n with rfl | hn
    · simp
    cases hs : stops a with
    | some r' =>
      rw [transfer_cons_of_some hn.ne' hs]
      constructor
      · intro h
        obtain ⟨rfl, hr⟩ := Prod.mk.inj h
        obtain rfl := Outcome.stopped.inj hr
        exact ⟨a, as, rfl, hs, by simp, hn⟩
      · rintro ⟨b, after, has, hb, hbefore, -⟩
        cases taken with
        | nil =>
          obtain ⟨rfl, -⟩ := List.cons.inj has
          rw [hs] at hb
          rw [Option.some.inj hb]
        | cons c taken =>
          -- the first answer stops the transfer, so it is not among those before
          obtain ⟨rfl, -⟩ := List.cons.inj has
          exact absurd (hbefore a List.mem_cons_self) (by simp [hs])
    | none =>
      rw [transfer_cons_of_none hn.ne' hs]
      constructor
      · intro h
        obtain ⟨rfl, hr⟩ := Prod.mk.inj h
        have hpair : transfer stops amount as (n - amount a) =
            ((transfer stops amount as (n - amount a)).1, .stopped r) := Prod.ext rfl hr
        obtain ⟨b, after, has, hb, hbefore, hlt⟩ := ih.mp hpair
        refine ⟨b, after, congrArg (a :: ·) has, hb, List.forall_mem_cons.mpr ⟨hs, hbefore⟩, ?_⟩
        rw [moved_cons]
        omega
      · rintro ⟨b, after, has, hb, hbefore, hlt⟩
        cases taken with
        | nil =>
          obtain ⟨rfl, -⟩ := List.cons.inj has
          exact absurd hb (by simp [hs])
        | cons c taken =>
          obtain ⟨rfl, has'⟩ := List.cons.inj has
          rw [moved_cons] at hlt
          have hrest := ih.mpr ⟨b, after, has', hb, (List.forall_mem_cons.mp hbefore).2,
            show moved amount taken < n - amount a by omega⟩
          rw [hrest]

theorem transfer_snd_eq_stopped_iff {as : List α} {n : ℕ} {r : ρ} :
    (transfer stops amount as n).2 = .stopped r ↔
      ∃ before a after, as = before ++ a :: after ∧ stops a = some r ∧
        (∀ b ∈ before, stops b = none) ∧ moved amount before < n := by
  constructor
  · intro h
    exact ⟨_, transfer_eq_stopped_iff.mp (Prod.ext rfl h)⟩
  · rintro ⟨before, h⟩
    rw [transfer_eq_stopped_iff.mpr h]

end Transfer
