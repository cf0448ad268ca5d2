import Mathlib.Data.List.Nodup

/-!
# Walking a list by saved successors

A loop over a linked list that may unlink the entry it is at saves that entry's successor before
each round. The successor of an entry is looked up in the list as it then is, and the head of the
list ends the walk.

## Main definitions

* `succIn l a`: the entry after `a` in `l`, if `a` is not the last
* `toVisit rest more`: what is still visited when `more` is appended behind the entries `rest`

## Main results

* `succIn_append_cons`: the successor of an entry is the first entry behind it
* `erase_append_cons`: unlinking an entry leaves those around it
* `head?_toVisit`: the saved successor stays the next entry
-/

namespace SavedSuccessor

variable {α : Type*}

/-! ## Successors -/

section Successor

variable [DecidableEq α]

/-- The entry after `a` in `l`; the last entry has none. -/
def succIn : List α → α → Option α
  | [], _ => none
  | b :: l, a => if a = b then l.head? else succIn l a

theorem succIn_append_cons {pre post : List α} {a : α} (h : (pre ++ a :: post).Nodup) :
    succIn (pre ++ a :: post) a = post.head? := by
  induction pre with
  | nil => rw [List.nil_append, succIn, if_pos rfl]
  | cons b pre ih =>
    rw [List.cons_append, List.nodup_cons] at h
    have hne : a ≠ b := by
      rintro rfl
      exact h.1 (by simp)
    rw [List.cons_append, succIn, if_neg hne, ih h.2]

theorem erase_append_cons {pre post : List α} {a : α} (h : (pre ++ a :: post).Nodup) :
    (pre ++ a :: post).erase a = pre ++ post := by
  have ha : a ∉ pre := fun hmem =>
    (List.nodup_append.mp h).2.2 a hmem a List.mem_cons_self rfl
  rw [List.erase_append_right _ ha, List.erase_cons_head]

end Successor

/-! ## Appending during the walk -/

/-- The entries still visited when `more` is appended while the walk is in front of `rest`. At the
last entry the saved successor is the head, and nothing appended is visited. -/
def toVisit (rest more : List α) : List α := if rest = [] then [] else rest ++ more

@[simp] theorem toVisit_nil (more : List α) : toVisit [] more = [] := if_pos rfl

@[simp] theorem toVisit_nil_right (rest : List α) : toVisit rest [] = rest := by
  rw [toVisit, List.append_nil]
  split_ifs with h
  · exact h.symm
  · rfl

theorem toVisit_of_ne {rest : List α} (h : rest ≠ []) (more : List α) :
    toVisit rest more = rest ++ more := if_neg h

theorem head?_toVisit (rest more : List α) : (toVisit rest more).head? = rest.head? := by
  cases rest with
  | nil => rfl
  | cons b rest => rw [toVisit_of_ne (List.cons_ne_nil _ _), List.cons_append]; rfl

theorem toVisit_suffix (rest more : List α) : toVisit rest more <:+ rest ++ more := by
  cases rest with
  | nil => exact List.nil_suffix
  | cons b rest => exact List.suffix_rfl

theorem mem_toVisit {rest more : List α} {a : α} (h : a ∈ toVisit rest more) :
    a ∈ rest ∨ a ∈ more := List.mem_append.mp ((toVisit_suffix rest more).mem h)

theorem mem_toVisit_left {rest : List α} {a : α} (h : a ∈ rest) (more : List α) :
    a ∈ toVisit rest more := by
  rw [toVisit_of_ne (List.ne_nil_of_mem h)]
  exact List.mem_append_left _ h

end SavedSuccessor
