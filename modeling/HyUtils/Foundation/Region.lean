import Mathlib.Data.List.Basic

/-!
# Bounds-checked memory regions

A region is the list of its cells. A read or a write of a range is undefined when the range
leaves the region, so a fault of a memory-unsafe program is a missing result and not a silent
truncation.

## Main definitions

* `load r off n`, `store r off xs`: read and write a range of a region
* `memcpy dst doff src soff n`: copy a range of one region into another
* `memset r off x n`: set a range of a region to one value

## Main results

* `memcpy_eq_store`: a copy whose source range is in bounds is a write
* `store_eq_some`, `store_eq_none`: a write succeeds exactly when its range is in bounds
* `load_one`, `store_one`: reads and writes of one cell
* `store_start`, `store_middle`, `store_cell`, `store_after`: writes at the start, over the middle,
  of one cell, and after the cells written so far
* `store_cons`, `memcpy_cons`: writes behind the first cell
* `store_load`, `foldlM_store_same`: writes that change nothing
* `foldlM_cells`, `foldlM_cells_eq_none`: a loop over an index reads the cells in order, and does
  not read behind them
* `memcpy_eq_some`, `memset_eq_some`: copies and fills within bounds
* `memcpy_bounds`: what a copy that succeeds has stayed within
* `memset_all`: a region set throughout
-/

namespace Region

variable {α : Type*}

/-- The `n` cells at `off`. -/
def load (r : List α) (off n : ℕ) : Option (List α) :=
  if off + n ≤ r.length then some ((r.drop off).take n) else none

/-- The region with `xs` written at `off`. -/
def store (r : List α) (off : ℕ) (xs : List α) : Option (List α) :=
  if off + xs.length ≤ r.length then some (r.take off ++ xs ++ r.drop (off + xs.length)) else none

/-- The region `dst` with `n` cells of `src` at `soff` copied to `doff`. -/
def memcpy (dst : List α) (doff : ℕ) (src : List α) (soff n : ℕ) : Option (List α) :=
  (load src soff n).bind (store dst doff)

/-- The region with `n` cells from `off` on set to `x`. -/
def memset (r : List α) (off : ℕ) (x : α) (n : ℕ) : Option (List α) :=
  store r off (List.replicate n x)

theorem store_eq_some {r : List α} {off : ℕ} {xs : List α} (h : off + xs.length ≤ r.length) :
    store r off xs = some (r.take off ++ xs ++ r.drop (off + xs.length)) := if_pos h

theorem store_eq_none {r : List α} {off : ℕ} {xs : List α} (h : r.length < off + xs.length) :
    store r off xs = none := if_neg (by omega)

theorem length_of_load {r xs : List α} {off n : ℕ} (h : load r off n = some xs) :
    xs.length = n := by
  rw [load] at h
  split_ifs at h
  cases h
  rw [List.length_take, List.length_drop]
  omega

/-- One cell read, and one written. -/
theorem load_one {r : List α} {i : ℕ} (h : i < r.length) : load r i 1 = some [r[i]] := by
  rw [load, if_pos (by omega), List.drop_eq_getElem_cons h, List.take_succ_cons, List.take_zero]

theorem store_one {r : List α} {i : ℕ} (h : i < r.length) (x : α) :
    store r i [x] = some (r.set i x) := by
  rw [store_eq_some (by rw [List.length_singleton]; omega), List.set_eq_take_append_cons_drop,
    if_pos h, List.append_assoc]
  rfl

/-- A read of the middle of a region. -/
theorem load_middle {xs ys zs : List α} {off n : ℕ} (hoff : off = xs.length) (hn : n = ys.length) :
    load (xs ++ ys ++ zs) off n = some ys := by
  have hfit : off + n ≤ (xs ++ ys ++ zs).length := by
    simp only [List.length_append]
    omega
  rw [load, if_pos hfit, hoff, hn, List.append_assoc, List.drop_left, List.take_left]

/-- A write over the middle of a region. -/
theorem store_middle {xs ys ys' zs : List α} {off : ℕ} (hoff : off = xs.length)
    (h : ys'.length = ys.length) : store (xs ++ ys ++ zs) off ys' = some (xs ++ ys' ++ zs) := by
  have hfit : off + ys'.length ≤ (xs ++ ys ++ zs).length := by
    simp only [List.length_append]
    omega
  rw [store_eq_some hfit, hoff, h, List.append_assoc xs ys zs, List.take_left, ← List.append_assoc,
    ← List.length_append, List.drop_left]

/-- A write of one cell. -/
theorem store_cell {xs zs : List α} {y y' : α} {off : ℕ} (hoff : off = xs.length) :
    store (xs ++ y :: zs) off [y'] = some (xs ++ y' :: zs) := by
  have hmid := @store_middle α xs [y] [y'] zs off hoff rfl
  rwa [List.append_assoc, List.append_assoc] at hmid

/-- A write after the cells written so far. -/
theorem store_after {xs ys rest : List α} {off : ℕ} (hoff : off = xs.length)
    (h : ys.length ≤ rest.length) :
    store (xs ++ rest) off ys = some (xs ++ ys ++ rest.drop ys.length) := by
  have hmid : store (xs ++ rest.take ys.length ++ rest.drop ys.length) off ys =
      some (xs ++ ys ++ rest.drop ys.length) :=
    store_middle hoff (by rw [List.length_take, Nat.min_eq_left h])
  rwa [List.append_assoc, List.take_append_drop] at hmid

theorem store_start {ys rest : List α} (h : ys.length ≤ rest.length) :
    store rest 0 ys = some (ys ++ rest.drop ys.length) := by
  rw [store_eq_some (by omega), List.take_zero, List.nil_append, Nat.zero_add]

/-- A write behind the first cell is a write to the other cells. -/
theorem store_cons (x : α) (r : List α) (off : ℕ) (xs : List α) :
    store (x :: r) (off + 1) xs = (store r off xs).map (x :: ·) := by
  by_cases hfit : off + xs.length ≤ r.length
  · have hfit' : off + 1 + xs.length ≤ (x :: r).length := by
      rw [List.length_cons]
      omega
    rw [store_eq_some hfit, store_eq_some hfit', Nat.add_right_comm]
    rfl
  · have hlong : (x :: r).length < off + 1 + xs.length := by
      rw [List.length_cons]
      omega
    rw [store_eq_none (Nat.lt_of_not_le hfit), store_eq_none hlong, Option.map_none]

/-- A copy behind the first cell is a copy to the other cells. -/
theorem memcpy_cons (x : α) (dst : List α) (doff : ℕ) (src : List α) (soff n : ℕ) :
    memcpy (x :: dst) (doff + 1) src soff n = (memcpy dst doff src soff n).map (x :: ·) := by
  rw [memcpy, memcpy]
  cases load src soff n with
  | none => rfl
  | some xs => exact store_cons x dst doff xs

/-- A write of what was read changes nothing. -/
theorem store_load {r xs : List α} {off n : ℕ} (h : load r off n = some xs) :
    store r off xs = some r := by
  unfold load at h
  split_ifs at h with hfit
  cases h
  have hlen : ((r.drop off).take n).length = n := by
    rw [List.length_take, List.length_drop]
    omega
  rw [store_eq_some (by omega), hlen, List.append_assoc, ← List.drop_drop, List.take_append_drop,
    List.take_append_drop]

/-- Writes of cells that hold the value already change nothing. -/
theorem foldlM_store_same {r : List α} {x : α} {offs : List ℕ}
    (h : ∀ off ∈ offs, r[off]? = some x) :
    offs.foldlM (fun r off => store r off [x]) r = some r := by
  induction offs with
  | nil => rfl
  | cons off offs ih =>
    obtain ⟨hlt, hget⟩ := List.getElem?_eq_some_iff.mp (h off List.mem_cons_self)
    -- the cell written is the cell that was there, so the region is put together again
    have hsplit : r = r.take off ++ [x] ++ r.drop (off + 1) := by
      rw [← hget, List.append_assoc, List.singleton_append, List.getElem_cons_drop,
        List.take_append_drop]
    have hfit : off + [x].length ≤ r.length := hlt
    have hstore : store r off [x] = some r := by
      rw [store_eq_some hfit, List.length_singleton, ← hsplit]
    rw [List.foldlM_cons, hstore]
    exact ih fun off' hmem => h off' (List.mem_cons_of_mem _ hmem)

theorem memcpy_eq_store {dst src : List α} {doff soff n : ℕ} (h : soff + n ≤ src.length) :
    memcpy dst doff src soff n = store dst doff ((src.drop soff).take n) := by
  simp only [memcpy, load, if_pos h, Option.bind_some]

/-- A loop that reads one cell after another is a loop over the cells. -/
theorem foldlM_cells {σ : Type*} (f : σ → α → Option σ) {r : List α} {n : ℕ} (h : n ≤ r.length)
    (s : σ) :
    (List.range n).foldlM (fun s i => r[i]?.bind (f s)) s = (r.take n).foldlM f s := by
  induction n with
  | zero => rfl
  | succ n ih =>
    have hget : r[n]? = some r[n] := List.getElem?_eq_getElem h
    rw [List.range_succ, List.foldlM_append, ih (Nat.le_of_succ_le h), List.take_add_one, hget,
      Option.toList_some, List.foldlM_append]
    simp only [List.foldlM_cons, List.foldlM_nil, hget, Option.bind_some]

/-- A loop that reads a cell behind the region is undefined. -/
theorem foldlM_cells_eq_none {σ : Type*} (f : σ → α → Option σ) {r : List α} {n : ℕ}
    (h : r.length < n) (s : σ) :
    (List.range n).foldlM (fun s i => r[i]?.bind (f s)) s = none := by
  induction n with
  | zero => exact absurd h (Nat.not_lt_zero _)
  | succ n ih =>
    rw [List.range_succ, List.foldlM_append]
    rcases Nat.lt_or_eq_of_le (Nat.le_of_lt_succ h) with hlt | heq
    · rw [ih hlt]
      rfl
    · -- the last cell read is not there
      have hget : r[n]? = none := List.getElem?_eq_none (Nat.le_of_eq heq)
      simp [hget]

/-- Copying nothing changes nothing. -/
theorem memcpy_zero {dst src : List α} {doff soff : ℕ} (hd : doff ≤ dst.length)
    (hs : soff ≤ src.length) : memcpy dst doff src soff 0 = some dst := by
  rw [memcpy_eq_store (by omega), List.take_zero, store_eq_some (by simpa using hd)]
  simp

/-- A copy within bounds succeeds and keeps the size of the region. -/
theorem memcpy_eq_some {dst src : List α} {doff soff n : ℕ} (hd : doff + n ≤ dst.length)
    (hs : soff + n ≤ src.length) :
    ∃ dst', memcpy dst doff src soff n = some dst' ∧ dst'.length = dst.length := by
  have hlen : ((src.drop soff).take n).length = n := by
    rw [List.length_take, List.length_drop]
    omega
  rw [memcpy_eq_store hs, store_eq_some (by omega)]
  refine ⟨_, rfl, ?_⟩
  simp only [List.length_append, List.length_take, List.length_drop]
  omega

/-- A copy that succeeds stays within bounds and keeps the size of the region. -/
theorem memcpy_bounds {dst src dst' : List α} {doff soff n : ℕ}
    (h : memcpy dst doff src soff n = some dst') :
    dst'.length = dst.length ∧ doff + n ≤ dst.length := by
  obtain ⟨xs, hload, hstore⟩ := Option.bind_eq_some_iff.mp h
  have hn : xs.length = n := by
    unfold load at hload
    split_ifs at hload
    cases hload
    rw [List.length_take, List.length_drop]
    omega
  unfold store at hstore
  split_ifs at hstore
  cases hstore
  simp only [List.length_append, List.length_take, List.length_drop]
  omega

/-- A range within bounds can be set, which keeps the size of the region. -/
theorem memset_eq_some {r : List α} {off n : ℕ} {x : α} (h : off + n ≤ r.length) :
    ∃ r', memset r off x n = some r' ∧ r'.length = r.length := by
  rw [memset, store_eq_some (by simpa using h)]
  refine ⟨_, rfl, ?_⟩
  simp only [List.length_append, List.length_take, List.length_drop, List.length_replicate]
  omega

theorem memset_all {r : List α} {x : α} {n : ℕ} (h : r.length = n) :
    memset r 0 x n = some (List.replicate n x) := by
  rw [memset, store_eq_some (by simp [h])]
  simp [h]

end Region
