import HyUtils.Foundation.Region

/-!
# The hash table

`src/src/utils_hash.c`: a table of buckets, each a chain of items. A key is not stored. Its index
selects a bucket, and its hash an item in the chain; an item owns a buffer for its value.

What the value of a `hal_char_t` is as an `int` is left open, since its header is not there. A chain
is the list of its items, and an allocation is granted. The signed products of `_key_to_index` wrap
around.

## Main definitions

* `CString`: the strings that are passed in
* `utilsHashGenerate`, `keyToIndex`: the hash and the index of a key
* `Item`, `HashContext config`: an item, and a table created with `config`
* `findItemFromList`: the search of a chain, with what its callback leaves of the item
* `utilsHashItemAdd`, `utilsHashItemDel`, `utilsHashItemGet`: the operations, undefined when they
  use a null pointer or leave a buffer
* `hashStep`: the table as a component
-/

namespace HyUtils.Hash

/-- A C string: the bytes before its terminating NUL. -/
@[ext] structure CString where
  bytes : List UInt8
  nul_notMem : 0 ∉ bytes

instance : DecidableEq CString := fun _ _ => decidable_of_iff _ CString.ext_iff.symm

/-- `HashConfig_t`. -/
structure HashConfig where
  bucketMaxLen : Int32

/-- `item_t`; a null pointer is no value. -/
structure Item where
  keyHash : UInt32
  val : Option (List UInt8)
  deriving DecidableEq

/-- `hash_context_t`. -/
@[ext] structure HashContext (config : HashConfig) where
  bucketHead : List (List Item)
  length_bucketHead : bucketHead.length = config.bucketMaxLen.toInt.toNat

/-! ## Keys -/

section Keys

variable (charToInt : UInt8 → Int32)

/-- `UtilsHashGenerate`. -/
def utilsHashGenerate (key : CString) : UInt32 :=
  key.bytes.foldl (fun hash c => hash * 31 + (charToInt c).toUInt32) 0

/-- `_key_to_index`; the first byte of the empty key is its NUL. -/
def keyToIndex (bucketMaxLen : Int32) (key : CString) : Int32 :=
  let len := Int32.ofNat key.bytes.length
  -- from the second byte on, up to the length as an `int`
  let index := ((key.bytes.take len.toInt.toNat).drop 1).foldl
    (fun index c => index * (1103515245 + charToInt c)) (charToInt (key.bytes.headD 0))
  index >>> 27 &&& (bucketMaxLen - 1)

end Keys

/-! ## Memory -/

/-- `BYTE_ALIGN`. -/
def byteAlign (len align : UInt32) : UInt32 := (len + align - 1) &&& ~~~(align - 1)

/-- `ALIGN4_UP`. -/
def align4Up (len : UInt32) : UInt32 := byteAlign len 4 + byteAlign 1 4

/-- `Hal_calloc(1, size)`. -/
def calloc (size : UInt32) : List UInt8 := List.replicate size.toNat 0

/-- `Hal_strncpy` from a string: its first `len` bytes, and NULs after its end. A null pointer is no
destination, whatever the length. -/
def strncpy (dst : Option (List UInt8)) (src : List UInt8) (len : ℕ) : Option (List UInt8) :=
  dst.bind fun buf => Region.store buf 0 (src.take len ++ List.replicate (len - src.length) 0)

/-- The string at the start of a buffer, when it ends there. -/
def stringOf (buf : List UInt8) : Option (List UInt8) :=
  if 0 ∈ buf then some (buf.takeWhile (· ≠ 0)) else none

/-! ## Items -/

/-- `_item_init`. -/
def itemInit (keyHash : UInt32) (val : CString) : Option Item := do
  let len := UInt32.ofNat val.bytes.length
  let buf ← strncpy (some (calloc (align4Up len))) val.bytes len.toNat
  some { keyHash, val := some buf }

/-- `_replace_item_val`. -/
def replaceItemVal (val : CString) (pos : Item) : Option (List Item × Unit) := do
  let len := UInt32.ofNat val.bytes.length
  let pos := { pos with val := some (calloc (align4Up len)) }
  -- it is the new buffer that is freed
  let pos := { pos with val := none }
  let buf ← strncpy pos.val val.bytes len.toNat
  some ([{ pos with val := some buf }], ())

/-- `_del_item_from_list`. -/
def delItemFromList (_ : Item) : Option (List Item × Unit) := some ([], ())

/-- `_get_item_val`: the buffer of the caller, with the value in it and no NUL after it. -/
def getItemVal (buf : List UInt8) (pos : Item) : Option (List Item × List UInt8) := do
  let val ← pos.val
  let str ← stringOf val
  let buf ← strncpy (some buf) str str.length
  some ([pos], buf)

/-- `_find_item_from_list` on a chain: what its callback leaves of the first item with the hash and
what it gives out, none when there is no such item. -/
def findItemFromList {β : Type} (handleItemCb : Item → Option (List Item × β)) (keyHash : UInt32) :
    List Item → Option (List Item × Option β)
  | [] => some ([], none)
  | pos :: n =>
    if pos.keyHash = keyHash then (handleItemCb pos).map fun r => (r.1 ++ n, some r.2)
    else (findItemFromList handleItemCb keyHash n).map fun r => (pos :: r.1, r.2)

/-! ## The interface -/

/-- `UtilsHashCreate`. -/
def utilsHashCreate (config : HashConfig) : HashContext config :=
  { bucketHead := List.replicate config.bucketMaxLen.toInt.toNat []
    length_bucketHead := List.length_replicate }

section Interface

variable (charToInt : UInt8 → Int32) {config : HashConfig}

namespace HashContext

/-- The index of a key as it is used. -/
def index (config : HashConfig) (key : CString) : ℕ :=
  (keyToIndex charToInt config.bucketMaxLen key).toUInt32.toNat

/-- The table with another chain at an index. -/
def setBucket (context : HashContext config) (index : ℕ) (items : List Item) :
    HashContext config :=
  { bucketHead := context.bucketHead.set index items
    length_bucketHead := by rw [List.length_set, context.length_bucketHead] }

/-- `_find_item_from_list` in the bucket of a key. -/
def findItem {β : Type} (context : HashContext config) (key : CString)
    (handleItemCb : Item → Option (List Item × β)) : Option (HashContext config × Option β) := do
  let items ← context.bucketHead[index charToInt config key]?
  let (items, found) ← findItemFromList handleItemCb (utilsHashGenerate charToInt key) items
  some (context.setBucket (index charToInt config key) items, found)

/-- `_add_item_to_list`. -/
def addItemToList (context : HashContext config) (key val : CString) :
    Option (HashContext config) := do
  let item ← itemInit (utilsHashGenerate charToInt key) val
  let items ← context.bucketHead[index charToInt config key]?
  some (context.setBucket (index charToInt config key) (item :: items))

end HashContext

open HashContext

/-- `UtilsHashItemAdd`. -/
def utilsHashItemAdd (context : HashContext config) (key val : CString) :
    Option (HashContext config) := do
  let (context, found) ← context.findItem charToInt key (replaceItemVal val)
  if found = none then context.addItemToList charToInt key val else some context

/-- `UtilsHashItemDel`: whether it has found the item. -/
def utilsHashItemDel (context : HashContext config) (key : CString) :
    Option (HashContext config × Bool) := do
  let (context, found) ← context.findItem charToInt key delItemFromList
  some (context, found.isSome)

/-- `UtilsHashItemGet`: whether it has found the item, and the buffer of the caller after it. -/
def utilsHashItemGet (context : HashContext config) (key : CString) (val : List UInt8) :
    Option (HashContext config × Bool × List UInt8) := do
  let (context, found) ← context.findItem charToInt key (getItemVal val)
  some (context, found.isSome, found.getD val)

/-- The calls of the table. -/
inductive HashOp
  | add (key val : CString)
  | del (key : CString)
  | get (key : CString) (val : List UInt8)
  deriving DecidableEq

/-- The key of a call. -/
def HashOp.key : HashOp → CString
  | .add key _ | .del key | .get key _ => key

/-- What a call returns: for `UtilsHashItemDel` and `UtilsHashItemGet` whether the item is found,
and for the latter the buffer. -/
inductive HashOut
  | add
  | del (findFlag : Bool)
  | get (findFlag : Bool) (val : List UInt8)
  deriving DecidableEq

/-- The table as a component. -/
def hashStep (context : HashContext config) : HashOp → Option (HashContext config × HashOut)
  | .add key val => do
    let context ← utilsHashItemAdd charToInt context key val
    some (context, .add)
  | .del key => do
    let (context, findFlag) ← utilsHashItemDel charToInt context key
    some (context, .del findFlag)
  | .get key val => do
    let (context, findFlag, val) ← utilsHashItemGet charToInt context key val
    some (context, .get findFlag val)

end Interface

end HyUtils.Hash
