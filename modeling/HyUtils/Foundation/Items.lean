import HyUtils.Foundation.Region

/-!
# Arrays of items in memory

A region of `n * L` cells is an array of `n` items of `L` cells each. Reads and writes of whole
items are reads and writes of the list of items.

## Main definitions

* `Item α L`: an item of `L` cells
* `cells xs`: the region that holds the items `xs`

## Main results

* `load_cells`, `store_cells`: reads and writes of items
* `cells_inj`: the cells determine the items
-/

namespace Items

open Region

variable {α : Type*} {L : ℕ}

/-- An item of `L` cells. -/
abbrev Item (α : Type*) (L : ℕ) := { x : List α // x.length = L }

/-- The region that holds the items `xs`. -/
def cells (xs : List (Item α L)) : List α := xs.flatMap Subtype.val

theorem cells_cons (x : Item α L) (xs : List (Item α L)) : cells (x :: xs) = x.1 ++ cells xs := rfl

theorem cells_append (xs ys : List (Item α L)) : cells (xs ++ ys) = cells xs ++ cells ys :=
  List.flatMap_append

theorem length_cells (xs : List (Item α L)) : (cells xs).length = xs.length * L := by
  induction xs with
  | nil => rw [List.length_nil, Nat.zero_mul]; rfl
  | cons x xs ih =>
    rw [cells_cons, List.length_append, ih, x.2, List.length_cons, Nat.succ_mul, Nat.add_comm]

variable {xs : List (Item α L)} {i : ℕ} {x : Item α L}

/-- The cells around an item. -/
theorem cells_split (h : xs[i]? = some x) :
    ∃ pre post, cells xs = pre ++ x.1 ++ post ∧ pre.length = i * L ∧
      ∀ y, cells (xs.set i y) = pre ++ y.1 ++ post := by
  obtain ⟨hi, hget⟩ := List.getElem?_eq_some_iff.mp h
  refine ⟨cells (xs.take i), cells (xs.drop (i + 1)), ?_, ?_, fun y => ?_⟩
  · conv_lhs => rw [← List.take_append_drop i xs, List.drop_eq_getElem_cons hi, hget]
    rw [cells_append, cells_cons, List.append_assoc]
  · rw [length_cells, List.length_take, Nat.min_eq_left (Nat.le_of_lt hi)]
  · rw [List.set_eq_take_cons_drop y hi, cells_append, cells_cons, List.append_assoc]

/-- A read of an item. -/
theorem load_cells (h : xs[i]? = some x) : load (cells xs) (i * L) L = some x.1 := by
  obtain ⟨pre, post, hcells, hpre, -⟩ := cells_split h
  rw [hcells]
  exact load_middle hpre.symm x.2.symm

/-- A read of the first cells of an item. -/
theorem load_cells_take (h : xs[i]? = some x) {n : ℕ} (hn : n ≤ L) :
    load (cells xs) (i * L) n = some (x.1.take n) := by
  obtain ⟨pre, post, hcells, hpre, -⟩ := cells_split h
  have hlen := x.2
  rw [hcells, ← List.take_append_drop n x.1, ← List.append_assoc, List.append_assoc _ _ post,
    List.take_append_drop]
  exact load_middle hpre.symm (by rw [List.length_take]; omega)

/-- A write of an item. -/
theorem store_cells (h : xs[i]? = some x) (y : Item α L) :
    store (cells xs) (i * L) y.1 = some (cells (xs.set i y)) := by
  obtain ⟨pre, post, hcells, hpre, hset⟩ := cells_split h
  rw [hcells, hset]
  exact store_middle hpre.symm (y.2.trans x.2.symm)

/-- Arrays of as many items are the same when their cells are. -/
theorem cells_inj {ys : List (Item α L)} (hlen : xs.length = ys.length)
    (h : cells xs = cells ys) : xs = ys := by
  induction xs generalizing ys with
  | nil => exact (List.length_eq_zero_iff.mp hlen.symm).symm
  | cons x xs ih =>
    obtain ⟨y, ys, rfl⟩ := List.exists_cons_of_length_eq_add_one hlen.symm
    rw [cells_cons, cells_cons] at h
    obtain ⟨hxy, hrest⟩ := List.append_inj h (x.2.trans y.2.symm)
    rw [Subtype.ext hxy, ih (Nat.succ.inj hlen) hrest]

end Items
