import HyUtils.Foundation.Items
import HyUtils.Foundation.Rearrange
import HyUtils.Sort.Model
import Mathlib.Algebra.Order.Ring.Nat

/-!
# Accesses to the items of an array

An array is given as its items, and stays an array of items: a comparison reads two of them,
`_mem_swap` exchanges two of them.

## Main definitions

* `Compares swapCb le`: the comparison function is consistent with the total preorder `le`
* `keyCb key`: the comparison by a byte of the items

## Main results

* `memSwap_cells`: `_mem_swap` is an exchange
* `memSwap_same`: an exchange of the same bytes changes nothing
* `item_cells`: the item at an index
-/

namespace HyUtils.Sort

open Region Items Rearrange

variable {σ : Type} {L : ℕ}

/-- The comparison function is consistent with a total preorder of the items. -/
structure Compares (swapCb : HySortSwapCb σ) (le : Item UInt8 L → Item UInt8 L → Prop) : Prop where
  total : ∀ x y, le x y ∨ le y x
  trans : ∀ x y z, le x y → le y z → le x z
  nonpos_iff : ∀ cb (x y : Item UInt8 L), (swapCb cb x.1 y.1).1 ≤ 0 ↔ le x y
  nonneg_iff : ∀ cb (x y : Item UInt8 L), 0 ≤ (swapCb cb x.1 y.1).1 ↔ le y x

theorem Compares.refl {swapCb : HySortSwapCb σ} {le : Item UInt8 L → Item UInt8 L → Prop}
    (h : Compares swapCb le) (x : Item UInt8 L) : le x x := (h.total x x).elim id id

theorem Compares.isTrans {swapCb : HySortSwapCb σ} {le : Item UInt8 L → Item UInt8 L → Prop}
    (h : Compares swapCb le) : IsTrans _ le := ⟨h.trans⟩

@[simp] theorem access_some {α : Type} (a : α) : access (some a) = .ok a := rfl

variable {xs : List (Item UInt8 L)} {itemLen : UInt32} {x y : Item UInt8 L}

/-- **`_mem_swap` is an exchange** of two items. -/
theorem memSwap_cells {i j : ℕ} (hL : itemLen.toNat = L) (hi : xs[i]? = some x)
    (hj : xs[j]? = some y) :
    memSwap (cells xs) (i * L) (j * L) itemLen = some (cells (exchange xs i j)) := by
  -- the second write is to the list after the first one
  have hj' : ∃ z, (xs.set i y)[j]? = some z := by
    rw [List.getElem?_set]
    split_ifs with h hlt
    · exact ⟨y, rfl⟩
    · exact absurd (List.getElem?_eq_some_iff.mp hi).1 (h ▸ hlt)
    · exact ⟨y, hj⟩
  obtain ⟨z, hz⟩ := hj'
  rw [memSwap, hL, load_cells hi, memcpy, load_cells hj, exchange_eq hi hj]
  simp only [Option.bind_eq_bind, Option.bind_some, store_cells hi, store_cells hz]

/-- An exchange of bytes that are the same changes nothing. -/
theorem memSwap_same {array tmp : List UInt8} {dst src : ℕ}
    (hdst : load array dst itemLen.toNat = some tmp)
    (hsrc : load array src itemLen.toNat = some tmp) :
    memSwap array dst src itemLen = some array := by
  rw [memSwap, hdst, memcpy, hsrc]
  simp only [Option.bind_eq_bind, Option.bind_some, store_load hdst, store_load hsrc]

/-! ## Comparisons by a byte -/

/-- The comparison by a byte of the items. -/
def keyCb (key : List UInt8 → UInt8) : HySortSwapCb Unit := fun cb x y =>
  (if key x < key y then -1 else if key y < key x then 1 else 0, cb)

theorem compares_keyCb (key : List UInt8 → UInt8) :
    Compares (keyCb key) fun x y : Item UInt8 L => key x.1 ≤ key y.1 where
  total _ _ := UInt8.le_total ..
  trans _ _ _ := UInt8.le_trans
  nonpos_iff cb x y := by
    rw [keyCb, ← UInt8.not_lt]
    dsimp only
    split_ifs with hlt hgt
    · exact iff_of_true (by decide) fun h => UInt8.lt_irrefl _ (UInt8.lt_trans hlt h)
    · exact iff_of_false (by decide) fun h => h hgt
    · exact iff_of_true (by decide) hgt
  nonneg_iff cb x y := by
    rw [keyCb, ← UInt8.not_lt]
    dsimp only
    split_ifs with hlt hgt
    · exact iff_of_false (by decide) fun h => h hlt
    · exact iff_of_true (by decide) hlt
    · exact iff_of_true (by decide) hlt

/-! ## Indexes -/

/-- The offset of an item, when 32 bits are enough for it. -/
theorem offset_ofNat {i : ℕ} (h : i * itemLen.toNat < 2 ^ 32) (hi : i < 2 ^ 31) :
    offset (Int32.ofNat i) itemLen = i * itemLen.toNat := by
  rw [offset, Int32.toUInt32_ofNat', UInt32.toNat_mul, UInt32.toNat_ofNat',
    Nat.mod_eq_of_lt (a := i) (by omega), Nat.mod_eq_of_lt h]

theorem item_cells {i : ℕ} (hL : itemLen.toNat = L) (hoff : i * L < 2 ^ 32) (hi : i < 2 ^ 31)
    (hx : xs[i]? = some x) : item (cells xs) (Int32.ofNat i) itemLen = .ok x.1 := by
  rw [item, offset_ofNat (by rwa [hL]) hi, hL, load_cells hx]
  rfl

theorem ofNat_succ_sub_one (i : ℕ) : Int32.ofNat (i + 1) - 1 = Int32.ofNat i := by
  rw [Int32.ofNat_add]
  exact Int32.add_sub_cancel _ _

theorem gap_ofNat {i j : ℕ} (hi : i < 2 ^ 31) (hj : j < 2 ^ 31) :
    gap (Int32.ofNat i) (Int32.ofNat j) = j - i := by
  rw [gap, Int32.toInt_ofNat_of_lt hi, Int32.toInt_ofNat_of_lt hj]
  omega

end HyUtils.Sort
