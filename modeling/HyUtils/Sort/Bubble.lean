import HyUtils.Foundation.Run
import HyUtils.Sort.Access

/-!
# Bubble sort

A pass of the inner loop carries the largest item seen so far along, and leaves the largest item of
the front behind it, in front of those that earlier passes left there. Items are exchanged with
their neighbours only when they are not in order, so tied items stay in order.

`_mem_swap` takes the length of an item as 32 bits, and with larger items it exchanges their first
bytes only.

## Main definitions

* `SortsStably`: the array is sorted, and tied items keep their order

## Main results

* `bubbleInner_cells`, `bubbleOuter_cells`: the loops, on arrays of items that 32 bits can count
* `hySortBubble_sorts_iff`: the sort sorts stably exactly when 32 bits count the bytes of an item
-/

namespace HyUtils.Sort

open Region Items Rearrange Runs

variable {σ : Type} {L : ℕ} {swapCb : HySortSwapCb σ} {le : Item UInt8 L → Item UInt8 L → Prop}

/-! ## One pass -/

theorem toNat_add_one {i : UInt32} (h : i.toNat + 1 < 2 ^ 32) : (i + 1).toNat = i.toNat + 1 := by
  rw [UInt32.toNat_add]
  exact Nat.mod_eq_of_lt h

theorem bubbleInner_end {itemLen bound fuel : ℕ} {j : UInt32} {s : List UInt8 × σ}
    (h : ¬ (j + 1).toNat < bound) :
    bubbleInner swapCb itemLen bound (fuel + 1) j s = .ok s := if_neg h

/-- A round of the inner loop, which compares neighbours. -/
theorem bubbleInner_round {xs : List (Item UInt8 L)} {x y : Item UInt8 L} {k bound fuel : ℕ}
    {j : UInt32} {cb : σ} (hj : j.toNat = k) (hx : xs[k]? = some x) (hy : xs[k + 1]? = some y)
    (hbound : k + 1 < bound) (hmax : bound < 2 ^ 32) :
    bubbleInner swapCb L bound (fuel + 1) j (cells xs, cb) =
      (if (swapCb cb x.1 y.1).1 > 0 then
        access (memSwap (cells xs) ((k + 1) * L) (k * L) (UInt32.ofNat L))
      else .ok (cells xs)) >>= fun array =>
        bubbleInner swapCb L bound fuel (j + 1) (array, (swapCb cb x.1 y.1).2) := by
  have hj1 : (j + 1).toNat = k + 1 := by rw [toNat_add_one (by omega), hj]
  rw [bubbleInner, if_pos (by omega)]
  dsimp only
  rw [hj, hj1, Nat.mul_comm L, Nat.mul_comm L, load_cells hx, load_cells hy]
  simp only [access_some, bind, Except.bind]
  split_ifs <;> rfl

/-- Neighbours that are not in order are exchanged. -/
theorem bubbleInner_step (h : Compares swapCb le) (hL : L < 2 ^ 32) {pre : List (Item UInt8 L)}
    {bound : ℕ} {j : UInt32} (hj : j.toNat = pre.length) (hbound : pre.length + 1 < bound)
    (hmax : bound < 2 ^ 32) (fuel : ℕ) (x y : Item UInt8 L) (post : List (Item UInt8 L)) (cb : σ) :
    ∃ x' y' cb', bubbleInner swapCb L bound (fuel + 1) j (cells (pre ++ x :: y :: post), cb) =
        bubbleInner swapCb L bound fuel (j + 1) (cells (pre ++ x' :: y' :: post), cb') ∧
      le x' y' ∧ le x y' ∧
      ∀ post, Stable le (pre ++ x :: y :: post) (pre ++ x' :: y' :: post) := by
  have hx : (pre ++ x :: y :: post)[pre.length]? = some x := by simp
  have hy : (pre ++ x :: y :: post)[pre.length + 1]? = some y := by simp
  rw [bubbleInner_round hj hx hy hbound hmax]
  by_cases hle : le x y
  · have hc := (h.nonpos_iff cb x y).mpr hle
    rw [if_neg (Int32.not_lt.mpr hc)]
    exact ⟨x, y, _, rfl, hle, hle, fun post => .refl le _⟩
  · have := h.isTrans
    have hc := mt (h.nonpos_iff cb x y).mp hle
    have hlen : (UInt32.ofNat L).toNat = L := by rw [UInt32.toNat_ofNat', Nat.mod_eq_of_lt hL]
    have hswap := memSwap_cells hlen hy hx
    rw [exchange_next] at hswap
    rw [if_pos (Int32.not_le.mp hc), hswap]
    exact ⟨y, x, _, rfl, (h.total x y).resolve_left hle, h.refl x, stable_swap hle pre⟩

/-- **A pass** leaves the largest item of the front behind it. -/
theorem bubbleInner_cells (h : Compares swapCb le) (hL : L < 2 ^ 32)
    {tail rest : List (Item UInt8 L)} :
    ∀ {pre : List (Item UInt8 L)} {m : Item UInt8 L} {j : UInt32} {fuel : ℕ} (cb : σ),
      j.toNat = pre.length → pre.length + rest.length + 1 < 2 ^ 32 → rest.length < fuel →
      (∀ x ∈ pre, le x m) →
      ∃ pre' m' cb', bubbleInner swapCb L (pre.length + rest.length + 1) fuel j
          (cells (pre ++ m :: (rest ++ tail)), cb) = .ok (cells (pre' ++ m' :: tail), cb') ∧
        pre'.length = pre.length + rest.length ∧ (∀ x ∈ pre', le x m') ∧
        Stable le (pre ++ m :: rest) (pre' ++ [m']) := by
  -- the largest item so far is at `j`, between those passed and those to come
  induction rest with
  | nil =>
    intro pre m j fuel cb hj hmax hfuel hpre
    obtain ⟨fuel, rfl⟩ := Nat.exists_eq_succ_of_ne_zero (by omega : fuel ≠ 0)
    have hend : ¬ (j + 1).toNat < pre.length + 0 + 1 := by
      rw [toNat_add_one (by simpa [hj] using hmax), hj]
      omega
    exact ⟨pre, m, cb, bubbleInner_end hend, rfl, hpre, .refl le _⟩
  | cons y rest ih =>
    intro pre m j fuel cb hj hmax hfuel hpre
    rw [List.length_cons] at hmax hfuel
    obtain ⟨fuel, rfl⟩ := Nat.exists_eq_succ_of_ne_zero (by omega : fuel ≠ 0)
    have hbound : pre.length + 1 < pre.length + (rest.length + 1) + 1 := by omega
    obtain ⟨x', y', cb₁, hround, hle, hmy, hstable₁⟩ :=
      bubbleInner_step h hL hj hbound hmax fuel m y (rest ++ tail) cb
    have hlen : (pre ++ [x']).length = pre.length + 1 := List.length_append
    have hbound' : (pre ++ [x']).length + rest.length + 1 =
        pre.length + (rest.length + 1) + 1 := by omega
    have hassoc : ∀ l, pre ++ x' :: y' :: l = (pre ++ [x']) ++ y' :: l := fun l => by simp
    -- what is passed is below the larger of the two
    have hpre' : ∀ x ∈ pre ++ [x'], le x y' := by
      intro x hx
      rcases List.mem_append.mp hx with hx | hx
      · exact h.trans x m y' (hpre x hx) hmy
      · exact List.mem_singleton.mp hx ▸ hle
    have hj' : (j + 1).toNat = (pre ++ [x']).length := by rw [toNat_add_one (by omega), hj, hlen]
    obtain ⟨pre', m', cb', hrun, hlen', hmax', hstable⟩ :=
      ih cb₁ hj' (by omega) (Nat.lt_of_succ_lt_succ hfuel) hpre'
    refine ⟨pre', m', cb', ?_, ?_, hmax', ?_⟩
    · rw [List.length_cons, List.cons_append, hround, hassoc, ← hbound', hrun]
    · rw [hlen', hlen, List.length_cons]
      omega
    · refine (hstable₁ rest).trans ?_
      rw [hassoc]
      exact hstable

/-! ## All passes -/

/-- **The passes** put the largest items of the front in order in front of the sorted rest. -/
theorem bubbleOuter_cells (h : Compares swapCb le) (hL : L < 2 ^ 32) {len fuel n : ℕ}
    (hlen : len < 2 ^ 32) (hfuel : len < fuel) :
    ∀ {front tail : List (Item UInt8 L)} {i : UInt32} {rounds : ℕ} (cb : σ),
      front.length = n → i.toNat + n = len → n < rounds → tail.Pairwise le →
      (∀ x ∈ front, ∀ y ∈ tail, le x y) →
      ∃ ys cb', bubbleOuter swapCb len L fuel rounds i (cells (front ++ tail), cb) =
          .ok (cells ys, cb') ∧ ys.Pairwise le ∧ Stable le (front ++ tail) ys := by
  induction n with
  | zero =>
    intro front tail i rounds cb hfront hi hrounds hsorted _
    obtain ⟨rounds, rfl⟩ := Nat.exists_eq_succ_of_ne_zero (by omega : rounds ≠ 0)
    rw [List.length_eq_zero_iff.mp hfront, List.nil_append]
    exact ⟨tail, cb, if_neg (by omega), hsorted, .refl le _⟩
  | succ n ih =>
    intro front tail i rounds cb hfront hi hrounds hsorted hle
    obtain ⟨rounds, rfl⟩ := Nat.exists_eq_succ_of_ne_zero (by omega : rounds ≠ 0)
    obtain ⟨m, rest, rfl⟩ := List.exists_cons_of_length_eq_add_one hfront
    have hrest : rest.length = n := Nat.succ.inj hfront
    have hstart : (0 : UInt32).toNat = ([] : List (Item UInt8 L)).length := rfl
    have hmax₀ : ([] : List (Item UInt8 L)).length + rest.length + 1 < 2 ^ 32 := by
      rw [List.length_nil]
      omega
    have hfuel₀ : rest.length < fuel := by omega
    obtain ⟨front', m', cb₁, hpass, hlen', hmax, hstable⟩ :=
      bubbleInner_cells h hL cb hstart hmax₀ hfuel₀ fun x hx => absurd hx List.not_mem_nil
    simp only [List.nil_append, List.length_nil, Nat.zero_add, hrest] at hpass hlen' hstable
    -- the items of the front are the same as before, so they stay below the rest
    have hmem : ∀ x ∈ front' ++ [m'], ∀ y ∈ tail, le x y := fun x hx y hy =>
      hle x (hstable.perm.mem_iff.mp hx) y hy
    have hsorted' : (m' :: tail).Pairwise le :=
      List.pairwise_cons.mpr ⟨fun y hy => hmem m' (by simp) y hy, hsorted⟩
    have hle' : ∀ x ∈ front', ∀ y ∈ m' :: tail, le x y := by
      intro x hx y hy
      rcases List.mem_cons.mp hy with rfl | hy
      · exact hmax x hx
      · exact hmem x (List.mem_append_left _ hx) y hy
    have hi' : (i + 1).toNat + n = len := by
      rw [toNat_add_one (by omega)]
      omega
    obtain ⟨ys, cb', hrun, hpair, hstable'⟩ :=
      ih cb₁ hlen' hi' (Nat.lt_of_succ_lt_succ hrounds) hsorted' hle'
    refine ⟨ys, cb', ?_, hpair, ?_⟩
    · rw [bubbleOuter, if_pos (by omega), show len - i.toNat = n + 1 by omega, List.cons_append,
        hpass]
      exact hrun
    · have hcat : front' ++ m' :: tail = front' ++ [m'] ++ tail := by simp
      rw [hcat] at hstable'
      exact (hstable.append_right tail).trans hstable'

/-! ## Items of any size -/

/-- The sort ends, and leaves the items in order with those that are tied in the order they had,
whatever the array of `len` items of `L` bytes and its comparison. -/
def SortsStably (len L : ℕ) : Prop :=
  ∀ (σ : Type) (swapCb : HySortSwapCb σ) (le : Item UInt8 L → Item UInt8 L → Prop),
    Compares swapCb le → ∀ (xs : List (Item UInt8 L)) (cb : σ), xs.length = len →
      ∃ rounds, ∀ fuel ≥ rounds, ∃ ys cb',
        hySortBubble swapCb true fuel (cells xs) cb len L = .ok (cells ys, cb') ∧
          ys.Pairwise le ∧ Stable le xs ys

theorem sortsStably_of_lt {len : ℕ} (hlen : len < 2 ^ 32) (hL : L < 2 ^ 32) :
    SortsStably len L := by
  intro σ swapCb le h xs cb hxs
  by_cases hzero : len = 0 ∨ L = 0
  · -- nothing is done, and all items of no bytes are the same
    refine ⟨0, fun fuel _ => ⟨xs, cb, if_pos hzero, ?_, .refl le xs⟩⟩
    rcases hzero with rfl | rfl
    · rw [List.length_eq_zero_iff.mp hxs]
      exact List.Pairwise.nil
    · refine List.pairwise_of_forall fun x y => ?_
      have hxy : x = y :=
        Subtype.ext ((List.length_eq_zero_iff.mp x.2).trans (List.length_eq_zero_iff.mp y.2).symm)
      exact hxy ▸ h.refl x
  · refine ⟨len + 1, fun fuel hfuel => ?_⟩
    have hstart : (0 : UInt32).toNat + len = len := Nat.zero_add len
    obtain ⟨ys, cb', hrun, hsorted, hstable⟩ :=
      bubbleOuter_cells h hL hlen hfuel cb hxs hstart hfuel .nil
        fun _ _ y hy => absurd hy List.not_mem_nil
    rw [List.append_nil] at hrun hstable
    exact ⟨ys, cb', (if_neg hzero).trans hrun, hsorted, hstable⟩

theorem sortsStably_of_le_one {len : ℕ} (hlen : len ≤ 1) : SortsStably len L := by
  intro σ swapCb le h xs cb hxs
  have hpair : xs.Pairwise le := by
    rcases Nat.le_one_iff_eq_zero_or_eq_one.mp hlen with rfl | rfl
    · rw [List.length_eq_zero_iff.mp hxs]
      exact List.Pairwise.nil
    · obtain ⟨x, rfl⟩ := List.length_eq_one_iff.mp hxs
      exact List.pairwise_singleton le x
  refine ⟨2, fun fuel hfuel => ⟨xs, cb, ?_, hpair, .refl le xs⟩⟩
  obtain ⟨fuel, rfl⟩ := Nat.exists_eq_add_of_le' hfuel
  by_cases hzero : len = 0 ∨ L = 0
  · exact if_pos hzero
  · -- a single pass over a single item
    obtain rfl : len = 1 := by omega
    exact if_neg hzero

section Same

variable {xs : List (Item UInt8 L)} {t : List UInt8} {len fuel : ℕ} {cb : σ} {s : List UInt8 × σ}

/-- Exchanges of bytes in which all items agree change nothing. -/
theorem bubbleInner_same {bound : ℕ} {j : UInt32} (hmax : bound < 2 ^ 32)
    (hbound : bound ≤ xs.length) (hlow : (UInt32.ofNat L).toNat ≤ L)
    (hsame : ∀ x ∈ xs, x.1.take (UInt32.ofNat L).toNat = t) (hj : j.toNat < bound)
    (hrun : bubbleInner swapCb L bound fuel j (cells xs, cb) = .ok s) : s.1 = cells xs := by
  induction fuel generalizing j cb with
  | zero => cases hrun
  | succ fuel ih =>
    have hj1 : (j + 1).toNat = j.toNat + 1 := toNat_add_one (by omega)
    by_cases hlt : (j + 1).toNat < bound
    · have hx := List.getElem?_eq_getElem (l := xs) (i := j.toNat) (by omega)
      have hy := List.getElem?_eq_getElem (l := xs) (i := j.toNat + 1) (by omega)
      have hswap : memSwap (cells xs) ((j.toNat + 1) * L) (j.toNat * L) (UInt32.ofNat L) =
          some (cells xs) := memSwap_same
        (by rw [load_cells_take hy hlow, hsame _ (List.getElem_mem _)])
        (by rw [load_cells_take hx hlow, hsame _ (List.getElem_mem _)])
      rw [bubbleInner_round rfl hx hy (by omega) hmax, hswap] at hrun
      -- whatever the comparison answers, the array is the same afterwards
      split_ifs at hrun
      · exact ih hlt hrun
      · exact ih hlt hrun
    · rw [bubbleInner_end hlt] at hrun
      cases hrun
      rfl

theorem bubbleOuter_same {i : UInt32} {rounds : ℕ} (hmax : len < 2 ^ 32) (hlen : xs.length = len)
    (hlow : (UInt32.ofNat L).toNat ≤ L)
    (hsame : ∀ x ∈ xs, x.1.take (UInt32.ofNat L).toNat = t)
    (hrun : bubbleOuter swapCb len L fuel rounds i (cells xs, cb) = .ok s) : s.1 = cells xs := by
  induction rounds generalizing i cb with
  | zero => cases hrun
  | succ rounds ih =>
    rw [bubbleOuter] at hrun
    split_ifs at hrun with hi
    · obtain ⟨⟨array, cb'⟩, hpass, hrest⟩ := bind_eq_ok.mp hrun
      obtain rfl : array = cells xs := bubbleInner_same (by omega) (by omega) hlow hsame
        (show (0 : UInt32).toNat < len - i.toNat by rw [UInt32.toNat_zero]; omega) hpass
      exact ih hrest
    · cases hrun
      rfl

end Same

/-- An item of `n + 1` bytes, all 0 but for the last. -/
def lastByte (n : ℕ) (b : UInt8) : Item UInt8 (n + 1) :=
  ⟨List.replicate n 0 ++ [b], by rw [List.length_append, List.length_replicate]; rfl⟩

/-- The order by the last byte. -/
def lastByteLe (x y : Item UInt8 L) : Prop := x.1.getLastD 0 ≤ y.1.getLastD 0

/-- Items that differ in a last byte that is not exchanged stay where they are. -/
theorem hySortBubble_unsorted {n k fuel : ℕ} {ys : List (Item UInt8 (n + 1))} {cb : Unit}
    (hlen : k + 2 < 2 ^ 32) (hL : 2 ^ 32 ≤ n + 1)
    (hrun : hySortBubble (keyCb fun x => x.getLastD 0) true fuel
      (cells (lastByte n 1 :: List.replicate (k + 1) (lastByte n 0))) () (k + 2) (n + 1) =
        .ok (cells ys, cb)) (hys : ys.length = k + 2) : ¬ ys.Pairwise lastByteLe := by
  have hlow : (UInt32.ofNat (n + 1)).toNat ≤ n := by
    rw [UInt32.toNat_ofNat']
    omega
  have htake : ∀ x ∈ lastByte n 1 :: List.replicate (k + 1) (lastByte n 0),
      x.1.take (UInt32.ofNat (n + 1)).toNat = List.replicate (UInt32.ofNat (n + 1)).toNat 0 := by
    intro x hx
    obtain ⟨b, rfl⟩ : ∃ b, x = lastByte n b := by
      rcases List.mem_cons.mp hx with rfl | hx
      · exact ⟨1, rfl⟩
      · exact ⟨0, List.eq_of_mem_replicate hx⟩
    rw [lastByte, List.take_append_of_le_length (by rwa [List.length_replicate]),
      List.take_replicate, Nat.min_eq_left hlow]
  have hxs : (lastByte n 1 :: List.replicate (k + 1) (lastByte n 0)).length = k + 2 := by
    rw [List.length_cons, List.length_replicate]
  rw [hySortBubble, if_neg (by omega), if_pos rfl] at hrun
  have hcells : cells ys = _ := bubbleOuter_same hlen hxs (Nat.le_succ_of_le hlow) htake hrun
  obtain rfl := cells_inj (hys.trans hxs.symm) hcells
  -- the first item is the largest
  intro hsorted
  have hle := (List.pairwise_cons.mp hsorted).1 (lastByte n 0)
    (List.mem_replicate.mpr ⟨Nat.succ_ne_zero k, rfl⟩)
  simp only [lastByteLe, lastByte, List.getLastD_concat] at hle
  exact absurd hle (by decide)

theorem not_sortsStably {len : ℕ} (hlen : len < 2 ^ 32) (h2 : 2 ≤ len) (hL : 2 ^ 32 ≤ L) :
    ¬ SortsStably len L := by
  intro hsorts
  obtain ⟨n, rfl⟩ := Nat.exists_eq_succ_of_ne_zero (by omega : L ≠ 0)
  obtain ⟨k, rfl⟩ := Nat.exists_eq_add_of_le' h2
  have hxs : (lastByte n 1 :: List.replicate (k + 1) (lastByte n 0)).length = k + 2 := by
    rw [List.length_cons, List.length_replicate]
  obtain ⟨rounds, hrounds⟩ := hsorts Unit (keyCb fun x => x.getLastD 0) lastByteLe
    (compares_keyCb _) _ () hxs
  obtain ⟨ys, cb', hrun, hsorted, hstable⟩ := hrounds rounds (Nat.le_refl _)
  exact hySortBubble_unsorted hlen hL hrun (hstable.perm.length_eq.trans hxs) hsorted

/-- **Bubble sort sorts stably** exactly when 32 bits count the bytes of an item, or there is
nothing to exchange. -/
theorem hySortBubble_sorts_iff {len : ℕ} (hlen : len < 2 ^ 32) :
    SortsStably len L ↔ len ≤ 1 ∨ L < 2 ^ 32 := by
  constructor
  · intro hsorts
    by_contra hnot
    rw [not_or, Nat.not_le, Nat.not_lt] at hnot
    exact not_sortsStably hlen hnot.1 hnot.2 hsorts
  · rintro (hone | hL)
    · exact sortsStably_of_le_one hone
    · exact sortsStably_of_lt hlen hL

theorem hySortBubble_sorts_iff_seven : SortsStably 7 4 ↔ 7 ≤ 1 ∨ 4 < 2 ^ 32 :=
  hySortBubble_sorts_iff (by decide)

/-- Two items of `2 ^ 32` bytes, the larger one first: `_mem_swap` is given the length 0. -/
theorem large_items_unsorted : ¬ ∃ rounds, ∀ fuel ≥ rounds, ∃ ys cb,
    hySortBubble (keyCb fun x => x.getLastD 0) true fuel
      (cells [lastByte (2 ^ 32 - 1) 1, lastByte (2 ^ 32 - 1) 0]) () 2 (2 ^ 32) =
        .ok (cells ys, cb) ∧ ys.Pairwise lastByteLe ∧
      Stable lastByteLe [lastByte (2 ^ 32 - 1) 1, lastByte (2 ^ 32 - 1) 0] ys := by
  rintro ⟨rounds, hrounds⟩
  obtain ⟨ys, cb, hrun, hsorted, hstable⟩ := hrounds rounds (Nat.le_refl _)
  exact hySortBubble_unsorted (n := 2 ^ 32 - 1) (k := 0) (by decide) (by decide) hrun
    hstable.perm.length_eq hsorted

end HyUtils.Sort
