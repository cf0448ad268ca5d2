import HyUtils.Hash.Model
import HyUtils.HyList.Hlist

/-!
# The hash table with its pointers

`src/src/utils_hash.c` over the lists of `include/hy_list.h`: the heads of the buckets, the list node
in each item, the pointer of an item to its value and the buffer of the value. A missing result is
an access to memory that is not allocated, a buffer that is given back twice, or a loop that is out
of rounds. The allocator's answers are inputs of a call.

## Main definitions

* `ItemTag`, `PointerTable`: an item with its pointer, and the memory of a table
* `PointerTable.utilsHashCreate`, `PointerTable.utilsHashItemAdd`,
  `PointerTable.utilsHashItemDel`, `PointerTable.utilsHashItemGet`,
  `PointerTable.utilsHashDestroy`: the functions of the module
* `PointerOp`, `pointerStep`: the table as a component
* `Fresh`: the allocator answers with memory that is not in use
-/

namespace HyUtils.Hash

open Hanging HyList

/-- An address of an item or of a buffer. -/
abbrev Addr : Type := ℕ

/-- `item_t` without its list node. A null pointer is no value. -/
structure ItemTag where
  keyHash : UInt32
  val : Option Addr
  deriving DecidableEq

/-- The memory of a table: the heads with the list nodes, the items without theirs, and the buffers
of the values. -/
structure PointerTable where
  hooks : Hooks ℕ Addr
  items : Addr → Option ItemTag
  vals : Addr → Option (List UInt8)

/-- `LIST_POISON1` and `LIST_POISON2`. -/
def listPoison : ListPoison Addr := ⟨0x00100100, 0x00200200⟩

namespace PointerTable

/-! ## Memory -/

/-- `Hal_calloc(1, ITEM_LEN)`. -/
def callocItem (p : PointerTable) (a : Addr) : PointerTable :=
  { p with
    hooks := { p.hooks with links := Function.update p.hooks.links a (some ⟨none, none⟩) }
    items := Function.update p.items a (some ⟨0, none⟩) }

/-- `Hal_calloc(1, size)`. -/
def callocVal (p : PointerTable) (v : Addr) (size : UInt32) : PointerTable :=
  { p with vals := Function.update p.vals v (some (calloc size)) }

/-- `Hal_free` of an item. -/
def freeItem (p : PointerTable) (a : Addr) : Option PointerTable :=
  (p.items a).map fun _ =>
    { p with
      hooks := { p.hooks with links := Function.update p.hooks.links a none }
      items := Function.update p.items a none }

/-- `Hal_free` of a buffer. -/
def freeVal (p : PointerTable) (v : Addr) : Option PointerTable :=
  (p.vals v).map fun _ => { p with vals := Function.update p.vals v none }

/-- Write the pointer of an item to its value. -/
def setVal (p : PointerTable) (a : Addr) (val : Option Addr) : Option PointerTable :=
  (p.items a).map fun item =>
    { p with items := Function.update p.items a (some { item with val }) }

/-- Write the hash of an item. -/
def setKeyHash (p : PointerTable) (a : Addr) (keyHash : UInt32) : Option PointerTable :=
  (p.items a).map fun item =>
    { p with items := Function.update p.items a (some { item with keyHash }) }

/-- `Hal_strncpy` into the value of an item. -/
def strncpyVal (p : PointerTable) (a : Addr) (src : List UInt8) (len : ℕ) :
    Option PointerTable := do
  let item ← p.items a
  let v ← item.val
  let buf ← strncpy (p.vals v) src len
  some { p with vals := Function.update p.vals v (some buf) }

/-! ## Items -/

/-- `_item_init`, when the allocator answers with `a` and `v`. -/
def itemInit (p : PointerTable) (a v : Addr) (keyHash : UInt32) (val : CString) :
    Option PointerTable := do
  let len := UInt32.ofNat val.bytes.length
  let p ← ((p.callocItem a).callocVal v (align4Up len)).setVal a (some v)
  let p ← p.strncpyVal a val.bytes len.toNat
  p.setKeyHash a keyHash

/-- `_item_final`. -/
def itemFinal (p : PointerTable) (a : Addr) : Option PointerTable := do
  let item ← p.items a
  let p ← match item.val with
    | none => some p
    | some v => do
      let p ← p.freeVal v
      p.setVal a none
  p.freeItem a

/-- `_replace_item_val`, when the allocator answers with `v`. -/
def replaceItemVal (v : Addr) (val : CString) (p : PointerTable) (pos : Addr) :
    Option (PointerTable × Unit) := do
  let len := UInt32.ofNat val.bytes.length
  let p ← (p.callocVal v (align4Up len)).setVal pos (some v)
  let p ← p.freeVal v
  let p ← p.setVal pos none
  let p ← p.strncpyVal pos val.bytes len.toNat
  some (p, ())

/-- `_del_item_from_list`. -/
def delItemFromList (p : PointerTable) (pos : Addr) : Option (PointerTable × Unit) := do
  let hooks ← hlistDel listPoison p.hooks pos
  let p ← { p with hooks }.itemFinal pos
  some (p, ())

/-- `_get_item_val`: the buffer of the caller, with the value in it and no NUL after it. -/
def getItemVal (buf : List UInt8) (p : PointerTable) (pos : Addr) :
    Option (PointerTable × List UInt8) := do
  let item ← p.items pos
  let v ← item.val
  let val ← p.vals v
  let str ← stringOf val
  let buf ← strncpy (some buf) str str.length
  some (p, buf)

/-! ## Buckets -/

/-- The body of the loop of `_find_item_from_list`. -/
def findBody {β : Type} (handleItemCb : PointerTable → Addr → Option (PointerTable × β))
    (keyHash : UInt32) (p : PointerTable) (pos : Addr) : Option (PointerTable × Option β) := do
  let item ← p.items pos
  if item.keyHash = keyHash then (handleItemCb p pos).map fun r => (r.1, some r.2)
  else some (p, none)

/-- `_find_item_from_list`. -/
def findItemFromList {β : Type} (handleItemCb : PointerTable → Addr → Option (PointerTable × β))
    (fuel : ℕ) (keyHash : UInt32) (p : PointerTable) (index : ℕ) :
    Option (PointerTable × Option β) :=
  hlistForEachSafe hooks (findBody handleItemCb keyHash) fuel p index

/-- The body of the loop of `_traverse_item_list` with `_del_item_from_list`; it never breaks. -/
def delBody (p : PointerTable) (pos : Addr) : Option (PointerTable × Option Unit) :=
  (p.delItemFromList pos).map fun r => (r.1, none)

/-- `_traverse_item_list` with `_del_item_from_list`. -/
def traverseItemList (fuel : ℕ) (p : PointerTable) (index : ℕ) : Option PointerTable :=
  (hlistForEachSafe hooks delBody fuel p index).map Prod.fst

/-! ## The interface -/

/-- The heads of `len` buckets, in memory that is cleared. -/
def callocHeads (len : ℕ) : PointerTable where
  hooks := ⟨fun i => if i < len then some none else none, fun _ => none⟩
  items := fun _ => none
  vals := fun _ => none

/-- `UtilsHashCreate`. -/
def utilsHashCreate (config : HashConfig) : Option PointerTable := do
  let len := config.bucketMaxLen.toInt.toNat
  let hooks ← (List.range len).foldlM initHlistHead (callocHeads len).hooks
  some { callocHeads len with hooks }

/-- `_context_final`, and with it `UtilsHashDestroy`: the items of every bucket, then the heads. -/
def utilsHashDestroy (fuel : ℕ) (config : HashConfig) (p : PointerTable) :
    Option PointerTable := do
  let p ← (List.range config.bucketMaxLen.toInt.toNat).foldlM (traverseItemList fuel) p
  some { p with hooks := { p.hooks with first := fun _ => none } }

variable (charToInt : UInt8 → Int32) (config : HashConfig) (fuel : ℕ)

/-- `_add_item_to_list`. -/
def addItemToList (p : PointerTable) (key val : CString) (a v : Addr) : Option PointerTable := do
  let p ← p.itemInit a v (utilsHashGenerate charToInt key) val
  let hooks ← hlistAddHead p.hooks a (HashContext.index charToInt config key)
  some { p with hooks }

/-- `UtilsHashItemAdd`, when the allocator answers with `a` and `v`. -/
def utilsHashItemAdd (p : PointerTable) (key val : CString) (a v : Addr) :
    Option PointerTable := do
  let (p, found) ← findItemFromList (replaceItemVal v val) fuel (utilsHashGenerate charToInt key) p
    (HashContext.index charToInt config key)
  if found = none then p.addItemToList charToInt config key val a v else some p

/-- `UtilsHashItemDel`: whether it has found the item. -/
def utilsHashItemDel (p : PointerTable) (key : CString) : Option (PointerTable × Bool) := do
  let (p, found) ← findItemFromList delItemFromList fuel (utilsHashGenerate charToInt key) p
    (HashContext.index charToInt config key)
  some (p, found.isSome)

/-- `UtilsHashItemGet`: whether it has found the item, and the buffer of the caller after it. -/
def utilsHashItemGet (p : PointerTable) (key : CString) (val : List UInt8) :
    Option (PointerTable × Bool × List UInt8) := do
  let (p, found) ← findItemFromList (getItemVal val) fuel (utilsHashGenerate charToInt key) p
    (HashContext.index charToInt config key)
  some (p, found.isSome, found.getD val)

end PointerTable

/-! ## The table as a component -/

/-- The calls, with what the allocator answers. -/
inductive PointerOp
  | add (key val : CString) (a v : Addr)
  | del (key : CString)
  | get (key : CString) (val : List UInt8)
  deriving DecidableEq

/-- The call itself. -/
def PointerOp.call : PointerOp → HashOp
  | .add key val _ _ => .add key val
  | .del key => .del key
  | .get key val => .get key val

/-- The allocator answers with memory that is not in use. -/
def Fresh (p : PointerTable) : PointerOp → Prop
  | .add _ _ a v => p.items a = none ∧ p.vals v = none
  | .del _ | .get _ _ => True

instance Fresh.decidable (p : PointerTable) : ∀ op, Decidable (Fresh p op)
  | .add _ _ _ _ => inferInstanceAs (Decidable (_ ∧ _))
  | .del _ | .get _ _ => isTrue trivial

/-- One call. -/
def pointerStep (charToInt : UInt8 → Int32) (config : HashConfig) (fuel : ℕ) (p : PointerTable) :
    PointerOp → Option (PointerTable × HashOut)
  | .add key val a v => do
    let p ← p.utilsHashItemAdd charToInt config fuel key val a v
    some (p, .add)
  | .del key => do
    let (p, findFlag) ← p.utilsHashItemDel charToInt config fuel key
    some (p, .del findFlag)
  | .get key val => do
    let (p, findFlag, val) ← p.utilsHashItemGet charToInt config fuel key val
    some (p, .get findFlag val)

end HyUtils.Hash
