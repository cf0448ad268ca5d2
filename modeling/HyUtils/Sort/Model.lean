import HyUtils.Foundation.Region

/-!
# Sorting arrays in place

`src/src/hy_sort.c`. An array is the region of its bytes. A comparison function may keep a state of
its own, and is given the bytes of the two items. Every loop and every recursion is allowed a number
of rounds, and runs out of them where the source does not end.

`size_t` numbers are natural: an array in memory has fewer than `2 ^ 64` bytes. The lengths that
`_mem_swap` and `_partition` take are of 32 bits, and so are the offsets `_partition` computes.

## Main definitions

* `memSwap`: `_mem_swap`
* `hySortBubble`: `HySortBubble`
* `partition`, `hySortQuick`: `_partition` and `HySortQuick`, with the answers of `malloc`
-/

namespace HyUtils.Sort

open Region

/-- What keeps a call from returning: it does not end within the rounds allowed, or it reads or
writes outside the array. -/
inductive Stop
  | rounds
  | fault
  deriving DecidableEq

/-- An access to the array. -/
def access {α : Type} : Option α → Except Stop α
  | none => .error .fault
  | some a => .ok a

/-- `HySortSwapCb_t`, with the state it keeps. -/
abbrev HySortSwapCb (σ : Type) := σ → List UInt8 → List UInt8 → Int32 × σ

variable {σ : Type}

/-- `_mem_swap` of the items at two offsets of the array. -/
def memSwap (array : List UInt8) (dst src : ℕ) (itemLen : UInt32) : Option (List UInt8) := do
  let tmp ← load array dst itemLen.toNat
  let array ← memcpy array dst array src itemLen.toNat
  store array src tmp

/-! ## Bubble sort -/

/-- The inner loop of `HySortBubble`, up to `len - i`, from `j` on. -/
def bubbleInner (swapCb : HySortSwapCb σ) (itemLen bound : ℕ) :
    ℕ → UInt32 → List UInt8 × σ → Except Stop (List UInt8 × σ)
  | 0, _, _ => .error .rounds
  | fuel + 1, j, (array, cb) =>
    if (j + 1).toNat < bound then do
      let src := itemLen * j.toNat
      let dst := itemLen * (j + 1).toNat
      let x ← access (load array src itemLen)
      let y ← access (load array dst itemLen)
      let (c, cb) := swapCb cb x y
      let array ← if c > 0 then access (memSwap array dst src (UInt32.ofNat itemLen))
        else .ok array
      bubbleInner swapCb itemLen bound fuel (j + 1) (array, cb)
    else .ok (array, cb)

/-- The outer loop of `HySortBubble`, from `i` on. -/
def bubbleOuter (swapCb : HySortSwapCb σ) (len itemLen fuel : ℕ) :
    ℕ → UInt32 → List UInt8 × σ → Except Stop (List UInt8 × σ)
  | 0, _, _ => .error .rounds
  | rounds + 1, i, s =>
    if i.toNat < len then do
      let s ← bubbleInner swapCb itemLen (len - i.toNat) fuel 0 s
      bubbleOuter swapCb len itemLen fuel rounds (i + 1) s
    else .ok s

/-- `HySortBubble`; the flag says whether `tmp` is allocated. -/
def hySortBubble (swapCb : HySortSwapCb σ) (tmpOk : Bool) (fuel : ℕ) (array : List UInt8) (cb : σ)
    (len itemLen : ℕ) : Except Stop (List UInt8 × σ) :=
  if len = 0 ∨ itemLen = 0 then .ok (array, cb)
  else if tmpOk then bubbleOuter swapCb len itemLen fuel fuel 0 (array, cb)
  else .ok (array, cb)

/-! ## Quick sort -/

/-- The offset `index * item_len`, in 32 bits. -/
def offset (index : Int32) (itemLen : UInt32) : ℕ := (index.toUInt32 * itemLen).toNat

/-- The item at an index. -/
def item (array : List UInt8) (index : Int32) (itemLen : UInt32) : Except Stop (List UInt8) :=
  access (load array (offset index itemLen) itemLen.toNat)

/-- The first inner loop of `_partition`, with `high` as far above `low` as the number says. -/
def scanHigh (swapCb : HySortSwapCb σ) (array : List UInt8) (itemLen : UInt32) (tmp : List UInt8) :
    ℕ → Int32 → σ → Except Stop (Int32 × σ)
  | 0, high, cb => .ok (high, cb)
  | k + 1, high, cb => do
    let x ← item array high itemLen
    let (c, cb) := swapCb cb x tmp
    if c ≥ 0 then scanHigh swapCb array itemLen tmp k (high - 1) cb else .ok (high, cb)

/-- The second inner loop of `_partition`, with `low` as far below `high` as the number says. -/
def scanLow (swapCb : HySortSwapCb σ) (array : List UInt8) (itemLen : UInt32) (tmp : List UInt8) :
    ℕ → Int32 → σ → Except Stop (Int32 × σ)
  | 0, low, cb => .ok (low, cb)
  | k + 1, low, cb => do
    let x ← item array low itemLen
    let (c, cb) := swapCb cb x tmp
    if c ≤ 0 then scanLow swapCb array itemLen tmp k (low + 1) cb else .ok (low, cb)

/-- How far `low` is below `high`. -/
def gap (low high : Int32) : ℕ := (high.toInt - low.toInt).toNat

/-- The outer loop of `_partition`. -/
def partitionLoop (swapCb : HySortSwapCb σ) (itemLen : UInt32) (tmp : List UInt8) :
    ℕ → Int32 → Int32 → List UInt8 → σ → Except Stop (Int32 × List UInt8 × σ)
  | 0, _, _, _, _ => .error .rounds
  | fuel + 1, low, high, array, cb =>
    if low < high then do
      let (high, cb) ← scanHigh swapCb array itemLen tmp (gap low high) high cb
      let array ← access (memSwap array (offset low itemLen) (offset high itemLen) itemLen)
      let (low, cb) ← scanLow swapCb array itemLen tmp (gap low high) low cb
      let array ← access (memSwap array (offset high itemLen) (offset low itemLen) itemLen)
      partitionLoop swapCb itemLen tmp fuel low high array cb
    else .ok (low, array, cb)

/-- The array with the state of the comparison function and the number of allocations made. -/
structure Sorting (σ : Type) where
  array : List UInt8
  cb : σ
  mallocs : ℕ

/-- `_partition`; `mallocOk` says which allocations succeed. -/
def partition (swapCb : HySortSwapCb σ) (mallocOk : ℕ → Bool) (itemLen : UInt32) (fuel : ℕ)
    (low high : Int32) (st : Sorting σ) : Except Stop (Int32 × Sorting σ) :=
  if ¬ mallocOk st.mallocs then .ok (-1, { st with mallocs := st.mallocs + 1 })
  else if ¬ mallocOk (st.mallocs + 1) then .ok (-1, { st with mallocs := st.mallocs + 2 })
  else do
    let tmp ← item st.array low itemLen
    let (low, array, cb) ← partitionLoop swapCb itemLen tmp fuel low high st.array st.cb
    let array ← access (store array (offset low itemLen) tmp)
    return (low, { array, cb, mallocs := st.mallocs + 2 })

/-- `HySortQuick`. -/
def hySortQuick (swapCb : HySortSwapCb σ) (mallocOk : ℕ → Bool) (itemLen : ℕ) :
    ℕ → Int32 → Int32 → Sorting σ → Except Stop (Sorting σ)
  | 0, _, _, _ => .error .rounds
  | fuel + 1, low, high, st =>
    if itemLen = 0 then .ok st
    else if low < high then do
      let (position, st) ← partition swapCb mallocOk (UInt32.ofNat itemLen) fuel low high st
      let st ← hySortQuick swapCb mallocOk itemLen fuel low (position - 1) st
      hySortQuick swapCb mallocOk itemLen fuel (position + 1) high st
    else .ok st

end HyUtils.Sort
