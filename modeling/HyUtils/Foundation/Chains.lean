import Mathlib.Data.List.Basic

/-!
# Chains of tagged cells

A chain is searched from its front for the first cell with a tag. It answers like a map from tags to
cells as long as no tag occurs in it twice.

## Main definitions

* `find tag k l`: the first cell of `l` with the tag `k`
* `erase tag k l`: the chain without that cell
* `AtMostOne tag l`: no tag occurs twice

## Main results

* `find_cons_self`, `find_cons_ne`: a cell put in front
* `find_erase_self`, `find_erase_ne`: a cell removed
* `atMostOne_cons`, `AtMostOne.erase`: what keeps a chain free of duplicates
* `exists_split`: the chain around the first cell with a tag
-/

namespace Chains

variable {α κ : Type*} [DecidableEq κ] {tag : α → κ} {k k' : κ} {l : List α} {a : α}

/-- The first cell with a tag. -/
def find (tag : α → κ) (k : κ) (l : List α) : Option α := l.find? fun a => tag a = k

/-- The chain without the first cell with a tag. -/
def erase (tag : α → κ) (k : κ) (l : List α) : List α := l.eraseP fun a => tag a = k

omit [DecidableEq κ] in
/-- No tag occurs twice. -/
def AtMostOne (tag : α → κ) (l : List α) : Prop := (l.map tag).Nodup

theorem find_eq_none : find tag k l = none ↔ k ∉ l.map tag := by
  simp [find]

theorem tag_of_find (h : find tag k l = some a) : tag a = k := by
  simpa using List.find?_some h

theorem find_cons_self (h : tag a = k) : find tag k (a :: l) = some a :=
  List.find?_cons_of_pos (by simpa using h)

theorem find_cons_ne (h : tag a ≠ k) : find tag k (a :: l) = find tag k l :=
  List.find?_cons_of_neg (by simpa using h)

/-- The chain around the first cell with a tag. -/
theorem exists_split (h : find tag k l = some a) :
    ∃ l₁ l₂, l = l₁ ++ a :: l₂ ∧ k ∉ l₁.map tag ∧ erase tag k l = l₁ ++ l₂ := by
  obtain ⟨ha, l₁, l₂, rfl, hl₁⟩ := List.find?_eq_some_iff_append.mp h
  have hl₁' : ∀ b ∈ l₁, ¬tag b = k := by simpa using hl₁
  refine ⟨l₁, l₂, rfl, by simpa using hl₁', ?_⟩
  rw [erase, List.eraseP_append_right _ (by simpa using hl₁'),
    List.eraseP_cons_of_pos (p := fun a => decide (tag a = k)) ha]

theorem erase_of_none (h : find tag k l = none) : erase tag k l = l := by
  apply List.eraseP_of_forall_not
  simpa [find] using h

/-- A cell with another tag is found whether or not one has been removed. -/
theorem find_erase_ne (h : k' ≠ k) : find tag k' (erase tag k l) = find tag k' l := by
  induction l with
  | nil => rfl
  | cons b l ih =>
    by_cases hb : tag b = k
    · rw [erase, List.eraseP_cons_of_pos (by simpa using hb), find_cons_ne (hb.trans_ne h.symm)]
    · rw [erase, List.eraseP_cons_of_neg (by simpa using hb)]
      by_cases hb' : tag b = k'
      · rw [find_cons_self hb', find_cons_self hb']
      · rw [find_cons_ne hb', find_cons_ne hb']
        exact ih

/-- Where no tag occurs twice, none is left of the one removed. -/
theorem find_erase_self (h : AtMostOne tag l) : find tag k (erase tag k l) = none := by
  cases hfind : find tag k l with
  | none =>
    rwa [erase_of_none hfind]
  | some a =>
    obtain ⟨l₁, l₂, rfl, hl₁, herase⟩ := exists_split hfind
    rw [herase, find_eq_none, List.map_append, List.mem_append, not_or]
    refine ⟨hl₁, ?_⟩
    -- the cell itself carried the tag, so the rest does not
    rw [AtMostOne, List.map_append, List.map_cons, tag_of_find hfind] at h
    exact (List.nodup_cons.mp (List.nodup_append.mp h).2.1).1

theorem atMostOne_cons : AtMostOne tag (a :: l) ↔ find tag (tag a) l = none ∧ AtMostOne tag l := by
  rw [AtMostOne, List.map_cons, List.nodup_cons, find_eq_none, AtMostOne]

theorem AtMostOne.erase (h : AtMostOne tag l) : AtMostOne tag (erase tag k l) :=
  h.sublist ((List.eraseP_sublist).map tag)

end Chains
