import Mathlib.Algebra.Group.Action.Defs
import Mathlib.Algebra.Order.BigOperators.Group.List

/-!
# Bounded queues

A queue of at most `cap` items. A write appends the longest prefix of its argument that fits, a
read removes items from the front, and every item accepted and not yet removed is in the queue, in
order. A queue whose items are written and read in records of one size is a queue of records.

## Main definitions

* `BoundedQueue α cap`: a list of at most `cap` items
* `BoundedQueue.put`, `get`, `clear`: the operations
* `BoundedQueue.Holds enc q recs`: `q` is the concatenation of the records `recs`

## Main results

* `Holds.put_of_lt`, `Holds.put_of_full`: a record is accepted whole or not at all
* `Holds.get_cons`: a read of one record size yields the oldest record whole
-/

variable {α : Type*} {cap : ℕ}

/-- A queue of at most `cap` items. -/
@[ext] structure BoundedQueue (α : Type*) (cap : ℕ) where
  items : List α
  length_le : items.length ≤ cap

namespace BoundedQueue

/-- The empty queue. -/
def empty (α : Type*) (cap : ℕ) : BoundedQueue α cap := ⟨[], Nat.zero_le _⟩

/-- How many of `n` further items the queue accepts. -/
def room (q : BoundedQueue α cap) (n : ℕ) : ℕ := min n (cap - q.items.length)

/-- Append the longest prefix of `xs` that fits. -/
def put (q : BoundedQueue α cap) (xs : List α) : BoundedQueue α cap :=
  ⟨q.items ++ xs.take (q.room xs.length), by
    have := q.length_le
    simp only [List.length_append, List.length_take, room]
    omega⟩

/-- Remove the first `n` items. -/
def get (q : BoundedQueue α cap) (n : ℕ) : BoundedQueue α cap :=
  ⟨q.items.drop n, by
    have := q.length_le
    rw [List.length_drop]
    omega⟩

/-- Remove all items. -/
def clear (_ : BoundedQueue α cap) : BoundedQueue α cap := empty α cap

@[simp] theorem put_items (q : BoundedQueue α cap) (xs : List α) :
    (q.put xs).items = q.items ++ xs.take (q.room xs.length) := rfl

@[simp] theorem get_items (q : BoundedQueue α cap) (n : ℕ) :
    (q.get n).items = q.items.drop n := rfl

@[simp] theorem clear_items (q : BoundedQueue α cap) : q.clear.items = [] := rfl

@[simp] theorem empty_items : (empty α cap).items = [] := rfl

/-! ## Queues of records -/

section Records

variable {R : Type*} {enc : R → List α} {r : ℕ}

/-- The queue holds exactly the records `recs`, oldest first. -/
def Holds (enc : R → List α) (q : BoundedQueue α cap) (recs : List R) : Prop :=
  q.items = (recs.map enc).flatten

theorem holds_empty : Holds enc (empty α cap) [] := rfl

theorem Holds.length_items {q : BoundedQueue α cap} {recs : List R} (h : Holds enc q recs)
    (henc : ∀ x, (enc x).length = r) : q.items.length = r * recs.length := by
  have hlen : List.length ∘ enc = fun _ => r := funext henc
  rw [h, List.length_flatten, List.map_map, hlen, List.map_const', List.sum_replicate, smul_eq_mul,
    Nat.mul_comm]

/-- **A record that fits** is accepted whole. -/
theorem Holds.put_of_lt {q : BoundedQueue α cap} {recs : List R} (h : Holds enc q recs)
    (henc : ∀ x, (enc x).length = r) (x : R) (hlt : r * (recs.length + 1) ≤ cap) :
    q.room r = r ∧ Holds enc (q.put (enc x)) (recs ++ [x]) := by
  have hl := h.length_items henc
  have hroom : q.room r = r := by
    rw [room, hl, Nat.min_eq_left]
    rw [Nat.mul_add] at hlt
    omega
  refine ⟨hroom, ?_⟩
  rw [Holds, put_items, henc, hroom, List.take_of_length_le (henc x).le, h]
  simp

/-- **A record that does not fit** is dropped whole, when the capacity is a number of records. -/
theorem Holds.put_of_full {q : BoundedQueue α cap} {recs : List R} (h : Holds enc q recs)
    (henc : ∀ x, (enc x).length = r) (x : R) (hdvd : r ∣ cap) (hr : 0 < r)
    (hfull : cap < r * (recs.length + 1)) :
    q.room r = 0 ∧ Holds enc (q.put (enc x)) recs := by
  have hl := h.length_items henc
  -- With no room for a record more, the records fill the capacity.
  have hcap : cap = r * recs.length := by
    obtain ⟨k, rfl⟩ := hdvd
    have hk : k < recs.length + 1 := Nat.lt_of_mul_lt_mul_left hfull
    have hk' : recs.length ≤ k := Nat.le_of_mul_le_mul_left (hl ▸ q.length_le) hr
    rw [show k = recs.length by omega]
  have hroom : q.room r = 0 := by rw [room, hl, ← hcap, Nat.sub_self, Nat.min_zero]
  refine ⟨hroom, ?_⟩
  rw [Holds, put_items, henc, hroom, List.take_zero, List.append_nil, h]

theorem Holds.get_cons {q : BoundedQueue α cap} {x : R} {recs : List R}
    (h : Holds enc q (x :: recs)) (henc : ∀ x, (enc x).length = r) :
    q.items.take r = enc x ∧ Holds enc (q.get r) recs := by
  rw [Holds, List.map_cons, List.flatten_cons] at h
  refine ⟨by rw [h, List.take_left' (henc x)], ?_⟩
  rw [Holds, get_items, h, List.drop_left' (henc x)]

end Records

end BoundedQueue
