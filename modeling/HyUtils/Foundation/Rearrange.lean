import Mathlib.Data.List.Basic
import Mathlib.Order.Defs.Unbundled

/-!
# Rearranging a range of a list

A program that sorts in place exchanges elements of one range and leaves the others where they are.
Such changes compose, and what holds of all elements of the range is kept.

## Main definitions

* `exchange xs i j`: the elements at `i` and `j` exchanged
* `Within l r xs ys`: `ys` is `xs` with the elements from `l` up to `r` rearranged
* `SortedOn le l r xs`: the elements from `l` up to `r` are in order
* `Stable le xs ys`: `ys` is a rearrangement of `xs` that keeps the order of elements that are tied

## Main results

* `within_exchange`: an exchange rearranges any range around its two elements
* `Within.trans`, `Within.mono`: rearrangements compose
* `Within.forall_mem`: what holds of all elements of the range is kept
* `SortedOn.join`: two sorted ranges around an element between them
* `stable_swap`: neighbours that are not in order may be exchanged
-/

namespace Rearrange

variable {α : Type*} {xs ys zs : List α} {l l' r r' i j : ℕ} {x y : α}

/-! ## Exchanges -/

/-- The elements at `i` and `j` exchanged. -/
def exchange (xs : List α) (i j : ℕ) : List α :=
  match xs[i]?, xs[j]? with
  | some x, some y => (xs.set i y).set j x
  | _, _ => xs

theorem exchange_eq (hi : xs[i]? = some x) (hj : xs[j]? = some y) :
    exchange xs i j = (xs.set i y).set j x := by
  rw [exchange, hi, hj]

theorem exchange_perm (hi : xs[i]? = some x) (hj : xs[j]? = some y) :
    (exchange xs i j).Perm xs := by
  obtain ⟨hilt, rfl⟩ := List.getElem?_eq_some_iff.mp hi
  obtain ⟨hjlt, rfl⟩ := List.getElem?_eq_some_iff.mp hj
  rw [exchange_eq hi hj]
  exact List.set_set_perm hilt hjlt

theorem exchange_left (hi : xs[i]? = some x) (hj : xs[j]? = some y) :
    (exchange xs i j)[i]? = some y := by
  obtain ⟨hilt, -⟩ := List.getElem?_eq_some_iff.mp hi
  rw [exchange_eq hi hj]
  by_cases h : j = i
  · subst h
    rw [List.getElem?_set_self (by simpa using hilt), ← hi, hj]
  · rw [List.getElem?_set_ne h, List.getElem?_set_self hilt]

theorem exchange_right (hi : xs[i]? = some x) (hj : xs[j]? = some y) :
    (exchange xs i j)[j]? = some x := by
  obtain ⟨hjlt, -⟩ := List.getElem?_eq_some_iff.mp hj
  rw [exchange_eq hi hj, List.getElem?_set_self (by simpa using hjlt)]

theorem exchange_other {k : ℕ} (hi : k ≠ i) (hj : k ≠ j) : (exchange xs i j)[k]? = xs[k]? := by
  unfold exchange
  split
  · rw [List.getElem?_set_ne hj.symm, List.getElem?_set_ne hi.symm]
  · rfl

theorem exchange_self (xs : List α) (i : ℕ) : exchange xs i i = xs := by
  cases hi : xs[i]? with
  | none => rw [exchange, hi]
  | some x =>
    obtain ⟨hlt, hget⟩ := List.getElem?_eq_some_iff.mp hi
    rw [exchange_eq hi hi, List.set_set, ← hget, List.set_getElem_self]

/-- An exchange of neighbours. -/
theorem exchange_next (pre post : List α) (x y : α) :
    exchange (pre ++ x :: y :: post) (pre.length + 1) pre.length = pre ++ y :: x :: post := by
  have hx : (pre ++ x :: y :: post)[pre.length]? = some x := by simp
  have hy : (pre ++ x :: y :: post)[pre.length + 1]? = some y := by simp
  rw [exchange_eq hy hx, List.set_append_right _ _ (by omega),
    List.set_append_right _ _ (Nat.le_refl _)]
  simp

/-! ## Rearrangements -/

/-- `ys` is `xs` with the elements from `l` up to `r` rearranged. -/
structure Within (l r : ℕ) (xs ys : List α) : Prop where
  perm : ys.Perm xs
  before : ∀ i < l, ys[i]? = xs[i]?
  after : ∀ i, r ≤ i → ys[i]? = xs[i]?

theorem Within.refl (l r : ℕ) (xs : List α) : Within l r xs xs :=
  ⟨.refl xs, fun _ _ => rfl, fun _ _ => rfl⟩

theorem Within.trans (h : Within l r xs ys) (h' : Within l r ys zs) : Within l r xs zs :=
  ⟨h'.perm.trans h.perm, fun i hi => (h'.before i hi).trans (h.before i hi),
    fun i hi => (h'.after i hi).trans (h.after i hi)⟩

theorem Within.mono (h : Within l r xs ys) (hl : l' ≤ l) (hr : r ≤ r') : Within l' r' xs ys :=
  ⟨h.perm, fun i hi => h.before i (by omega), fun i hi => h.after i (by omega)⟩

theorem Within.length_eq (h : Within l r xs ys) : ys.length = xs.length := h.perm.length_eq

theorem within_exchange (hi : xs[i]? = some x) (hj : xs[j]? = some y) (hli : l ≤ i) (hir : i < r)
    (hlj : l ≤ j) (hjr : j < r) : Within l r xs (exchange xs i j) :=
  ⟨exchange_perm hi hj, fun _ _ => exchange_other (by omega) (by omega),
    fun _ _ => exchange_other (by omega) (by omega)⟩

/-- **The elements of the range are rearranged** among themselves. -/
theorem Within.middle (h : Within l r xs ys) :
    ((ys.drop l).take (r - l)).Perm ((xs.drop l).take (r - l)) := by
  have htake : ys.take l = xs.take l := by
    apply List.ext_getElem?
    intro k
    rw [List.getElem?_take, List.getElem?_take]
    split_ifs with hk
    · exact h.before k hk
    · rfl
  have hdrop : (ys.drop l).drop (r - l) = (xs.drop l).drop (r - l) := by
    apply List.ext_getElem?
    intro k
    simp only [List.getElem?_drop]
    exact h.after _ (by omega)
  have hall := h.perm
  rw [← List.take_append_drop l ys, ← List.take_append_drop l xs, htake,
    List.perm_append_left_iff] at hall
  rw [← List.take_append_drop (r - l) (ys.drop l), ← List.take_append_drop (r - l) (xs.drop l),
    hdrop, List.perm_append_right_iff] at hall
  exact hall

theorem mem_middle_iff : x ∈ (xs.drop l).take (r - l) ↔ ∃ i, l ≤ i ∧ i < r ∧ xs[i]? = some x := by
  rw [List.mem_iff_getElem?]
  constructor
  · rintro ⟨k, hk⟩
    rw [List.getElem?_take] at hk
    split_ifs at hk with hlt
    rw [List.getElem?_drop] at hk
    exact ⟨l + k, by omega, by omega, hk⟩
  · rintro ⟨i, hl, hr, hi⟩
    refine ⟨i - l, ?_⟩
    rw [List.getElem?_take, if_pos (by omega), List.getElem?_drop, Nat.add_sub_cancel' hl, hi]

/-- What holds of all elements of the range is kept. -/
theorem Within.forall_mem {P : α → Prop} (h : Within l r xs ys)
    (hP : ∀ i x, l ≤ i → i < r → xs[i]? = some x → P x) {i : ℕ} (hl : l ≤ i) (hr : i < r)
    (hi : ys[i]? = some x) : P x := by
  have hmem := h.middle.mem_iff.mp (mem_middle_iff.mpr ⟨i, hl, hr, hi⟩)
  obtain ⟨j, hlj, hjr, hj⟩ := mem_middle_iff.mp hmem
  exact hP j x hlj hjr hj

/-! ## Order -/

variable {le : α → α → Prop}

/-- The elements from `l` up to `r` are in order. -/
def SortedOn (le : α → α → Prop) (l r : ℕ) (xs : List α) : Prop :=
  ∀ i j x y, l ≤ i → i < j → j < r → xs[i]? = some x → xs[j]? = some y → le x y

theorem SortedOn.of_le (h : r ≤ l + 1) : SortedOn le l r xs := fun _ _ _ _ _ _ _ _ _ => by omega

/-- A sorted range that is left alone stays sorted. -/
theorem SortedOn.congr (h : SortedOn le l r xs)
    (heq : ∀ i, l ≤ i → i < r → ys[i]? = xs[i]?) : SortedOn le l r ys := by
  intro i j x y hl hij hr hi hj
  rw [heq i hl (by omega)] at hi
  rw [heq j (by omega) hr] at hj
  exact h i j x y hl hij hr hi hj

/-- **Two sorted ranges** around an element that is between them. -/
theorem SortedOn.join [IsTrans α le] {p : ℕ} {v : α} (hlow : SortedOn le l p xs)
    (hhigh : SortedOn le (p + 1) r xs) (hp : xs[p]? = some v)
    (hle : ∀ i x, l ≤ i → i < p → xs[i]? = some x → le x v)
    (hge : ∀ i x, p < i → i < r → xs[i]? = some x → le v x) : SortedOn le l r xs := by
  intro i j x y hl hij hr hi hj
  -- where the two elements are relative to the one between
  rcases Nat.lt_trichotomy j p with hjp | rfl | hjp
  · exact hlow i j x y hl hij hjp hi hj
  · obtain rfl := Option.some.inj (hp.symm.trans hj)
    exact hle i x hl hij hi
  · have hvy := hge j y hjp hr hj
    rcases Nat.lt_trichotomy i p with hip | rfl | hip
    · exact IsTrans.trans _ _ _ (hle i x hl hip hi) hvy
    · obtain rfl := Option.some.inj (hp.symm.trans hi)
      exact hvy
    · exact hhigh i j x y hip hij hr hi hj

/-! ## Stable rearrangements -/

open Classical in
/-- The elements that are tied with `x`, in order. -/
noncomputable def ties (le : α → α → Prop) (x : α) (xs : List α) : List α :=
  xs.filter fun y => le x y ∧ le y x

theorem ties_append (x : α) (xs ys : List α) :
    ties le x (xs ++ ys) = ties le x xs ++ ties le x ys := List.filter_append ..

/-- A rearrangement that keeps the order of elements that are tied. -/
structure Stable (le : α → α → Prop) (xs ys : List α) : Prop where
  perm : ys.Perm xs
  ties : ∀ x, ties le x ys = ties le x xs

theorem Stable.refl (le : α → α → Prop) (xs : List α) : Stable le xs xs :=
  ⟨.refl xs, fun _ => rfl⟩

theorem Stable.trans (h : Stable le xs ys) (h' : Stable le ys zs) : Stable le xs zs :=
  ⟨h'.perm.trans h.perm, fun x => (h'.ties x).trans (h.ties x)⟩

theorem Stable.append_right (h : Stable le xs ys) (post : List α) :
    Stable le (xs ++ post) (ys ++ post) := by
  refine ⟨h.perm.append_right post, fun x => ?_⟩
  rw [ties_append, ties_append, h.ties]

/-- Neighbours that are not in order are not tied, and may be exchanged. -/
theorem stable_swap [IsTrans α le] (h : ¬ le x y) (pre post : List α) :
    Stable le (pre ++ x :: y :: post) (pre ++ y :: x :: post) := by
  refine ⟨(List.Perm.swap x y post).append_left pre, fun z => ?_⟩
  rw [ties_append, ties_append]
  congr 1
  -- no element is tied with both of them
  have hnot : ¬ ((le z x ∧ le x z) ∧ le z y ∧ le y z) := by
    rintro ⟨⟨-, hxz⟩, hzy, -⟩
    exact h (IsTrans.trans _ _ _ hxz hzy)
  by_cases hx : le z x ∧ le x z
  · have hy : ¬ (le z y ∧ le y z) := fun hy => hnot ⟨hx, hy⟩
    simp [ties, hx, hy]
  · simp [ties, List.filter_cons, hx]

end Rearrange
