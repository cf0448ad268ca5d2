import HyUtils.Hash.Model
import HyUtils.Utils.Convert

/-!
# Fields of JSON trees

`src/src/hy_cjson.c`: a field of a tree is named by a path of keys joined by dots, each with an index
in brackets behind it. `_get_item` copies the path, cuts it at its dots, and looks the pieces up one
after another; `_get_index` cuts a piece once more, at its brackets.

The tree is that of the cJSON library, which is not there: nodes are of any kind, and what the
library finds at them is given. Allocations are granted, and the macro `ALIGN4` is that of `hy_mem.h`.

## Main definitions

* `CJson ν`: what the library finds at the nodes of a tree
* `getIndex`, `getItem`: the functions that follow a path, undefined when they leave a buffer or use
  an index that has not been read
* `getItemCom`, `hyJsonGetInt`, `hyJsonGetDouble`, `hyJsonGetString`: the interface
-/

namespace HyUtils.Cjson

open Region Str Scanf Utils Hash

/-- What the functions of the cJSON library find at the nodes of a tree, and the members of `cJSON`
that are used; `δ` is the type `double`. -/
structure CJson (ν δ : Type) where
  getObjectItem : ν → List UInt8 → Option ν
  getArrayItem : ν → Int32 → Option ν
  type : ν → Int32
  valueint : ν → Int32
  valuedouble : ν → δ
  valuestring : ν → List UInt8

/-- `cJSON_Number`. -/
abbrev cJSONNumber : Int32 := 8

/-- `cJSON_String`. -/
abbrev cJSONString : Int32 := 16

variable {ν δ : Type}

/-! ## Following a path -/

/-- `_get_index` on the string at `off`: the buffer after it, and the index. The number between the
brackets is stored by `toInt`; where there is none, the index is used without a value. -/
def getIndex (toInt : ℤ → Int32) (fmt : List UInt8) (off : ℕ) : Option (List UInt8 × Int32) := do
  let s ← stringAt fmt off
  match s.findIdx? (· = 91), s.findIdx? (· = 93) with
  | some start, some stop =>
    let fmt ← store fmt (off + stop) [0]
    let fmt ← store fmt (off + start) [0]
    let digits ← stringAt fmt (off + start + 1)
    let v ← (sscanf [.int] digits).head?
    let index := toInt v
    return (fmt, if 0 ≤ index then index else -1)
  | _, _ => return (fmt, -1)

/-- `_field_fmt_init`. -/
def fieldFmtInit (field : CString) (fieldLen : UInt32) : Option (List UInt8) :=
  strncpy (some (calloc (align4Up fieldLen))) field.bytes fieldLen.toNat

/-- The first loop of `_get_item`, on the first `fieldLen` bytes. -/
def cutDots (fieldFmt : List UInt8) (fieldLen : UInt32) : Option (List UInt8) :=
  (List.range fieldLen.toNat).foldlM (fun fmt i => do
    let c ← fmt[i]?
    if c = 46 then store fmt i [0] else return fmt) fieldFmt

/-- The second loop of `_get_item`: the item it ends with. -/
def getItemLoop (json : CJson ν δ) (toInt : ℤ → Int32) :
    ℕ → List UInt8 → ℕ → ν → Option ν → Int32 → Option (Option ν)
  | 0, _, _, _, child, fieldLenTmp => if 0 < fieldLenTmp then none else some child
  | fuel + 1, fieldFmt, off, parent, child, fieldLenTmp =>
    if 0 < fieldLenTmp then do
      let offset := UInt32.ofNat (← strlen fieldFmt off) + 1
      let (fieldFmt, index) ← getIndex toInt fieldFmt off
      match json.getObjectItem parent (← stringAt fieldFmt off) with
      | none => return none
      | some child =>
        -- no index and an index that is negative are one
        match if 0 ≤ index then json.getArrayItem child index else some child with
        | none => return none
        | some child =>
          getItemLoop json toInt fuel fieldFmt (off + offset.toNat) child (some child)
            (fieldLenTmp - offset.toInt32)
    else some child

/-- `_get_item`. -/
def getItem (json : CJson ν δ) (toInt : ℤ → Int32) (root : ν) (field : CString)
    (fieldLen : UInt32) : Option (Option ν) := do
  let fieldFmt ← fieldFmtInit field fieldLen
  let fieldFmt ← cutDots fieldFmt fieldLen
  -- each turn takes at least one of the bytes that are left
  getItemLoop json toInt fieldLen.toNat fieldFmt 0 root none fieldLen.toInt32

/-! ## The interface -/

/-- `_get_item_com`. -/
def getItemCom (json : CJson ν δ) (toInt : ℤ → Int32) (root : Option ν) (field : Option CString)
    (fieldLen : UInt32) : Option (Option ν) :=
  match root, field with
  | some root, some field =>
    if fieldLen ≤ 0 then some none else getItem json toInt root field fieldLen
  | _, _ => some none

/-- The macro `_get_item_com_macro`: the item, or none where the function returns -1. -/
def getItemComMacro (json : CJson ν δ) (toInt : ℤ → Int32) (root : Option ν)
    (field : Option CString) (fieldLen : UInt32) (valType : Int32) : Option (Option ν) := do
  let item ← getItemCom json toInt root field fieldLen
  return item.filter fun item => valType = json.type item

/-- `HyJsonGetInt`: what it stores, where it returns 0. -/
def hyJsonGetInt (json : CJson ν δ) (toInt : ℤ → Int32) (root : Option ν) (field : Option CString)
    (fieldLen : UInt32) : Option (Option Int32) := do
  let item ← getItemComMacro json toInt root field fieldLen cJSONNumber
  return item.map json.valueint

/-- `HyJsonGetDouble`. -/
def hyJsonGetDouble (json : CJson ν δ) (toInt : ℤ → Int32) (root : Option ν)
    (field : Option CString) (fieldLen : UInt32) : Option (Option δ) := do
  let item ← getItemComMacro json toInt root field fieldLen cJSONNumber
  return item.map json.valuedouble

/-- `HyJsonGetString`: the buffer `val` after it, where it returns 0. -/
def hyJsonGetString (json : CJson ν δ) (toInt : ℤ → Int32) (root : Option ν) (val : List UInt8)
    (field : Option CString) (fieldLen : UInt32) : Option (Option (List UInt8)) := do
  match ← getItemComMacro json toInt root field fieldLen cJSONString with
  | none => return none
  | some item =>
    let s ← stringAt (json.valuestring item) 0
    return some (← store val 0 (s ++ [0]))

/-! ## A tree -/

/-- A tree in which every lookup succeeds: its nodes count the fields on the way to them. -/
def countingTree : CJson ℕ Unit :=
  { getObjectItem := fun n _ => some (n + 1)
    getArrayItem := fun n _ => some n
    type := fun _ => cJSONNumber
    valueint := fun n => Int32.ofNat n
    valuedouble := fun _ => ()
    valuestring := fun _ => [] }

end HyUtils.Cjson
