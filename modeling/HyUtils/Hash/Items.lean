import HyUtils.Foundation.Chains
import HyUtils.Foundation.Words
import HyUtils.Hash.Model

/-!
# Items and chains of the hash table

What the operations of the table do to the chain of a key, and what an item holds of its value.

## Main definitions

* `HashContext.lookup`: the item that an operation on a key meets
* `valBuffer`: the buffer of a value
* `HashContext.pushItem`, `HashContext.eraseItem`: the table with an item more or less

## Main results

* `index_lt`: the index of a key is that of a bucket
* `itemInit_eq_some`, `stringOf_valBuffer`: a value is stored with the NUL after it
* `utilsHashItemAdd_of_none`, `utilsHashItemAdd_of_some`, `utilsHashItemDel_eq`,
  `utilsHashItemGet_of_none`, `utilsHashItemGet_of_some`: the operations
-/

namespace HyUtils.Hash

open HashContext

variable {charToInt : UInt8 → Int32} {config : HashConfig} {context : HashContext config}
  {key key' val : CString} {item : Item}

/-! ## Values -/

/-- The longest value whose buffer has room for it. -/
abbrev valLenMax : ℕ := 2 ^ 32 - 8

/-- The buffer of a value that is not too long has room for the NUL after it. -/
theorem lt_align4Up {len : UInt32} (h : len.toNat ≤ valLenMax) :
    len.toNat < (align4Up len).toNat := by
  have hmax : valLenMax = 2 ^ 32 - 8 := rfl
  have hup : (len + 3).toNat = len.toNat + 3 := by
    rw [UInt32.toNat_add, Nat.mod_eq_of_lt]
    · rfl
    · change len.toNat + 3 < 2 ^ 32
      omega
  have halign : align4Up len = (len + 3 &&& ~~~3) + 4 := by
    have hthree : len + 4 - 1 = len + 3 := by
      rw [show (4 : UInt32) = 3 + 1 from rfl, ← UInt32.add_assoc, UInt32.add_sub_cancel]
    rw [align4Up, byteAlign, hthree]
    rfl
  have hlow : (len + 3).toNat ≤ (len + 3 &&& ~~~3).toNat + 3 := Words.toNat_le_and_not_add _ 3
  have hhigh : (len + 3 &&& ~~~3).toNat ≤ (len + 3).toNat := by
    rw [UInt32.toNat_and]
    exact Nat.and_le_left
  rw [halign, UInt32.toNat_add, Nat.mod_eq_of_lt]
  · change len.toNat < (len + 3 &&& ~~~3).toNat + 4
    omega
  · change (len + 3 &&& ~~~3).toNat + 4 < 2 ^ 32
    omega

/-- The buffer of a value: its bytes, and NULs up to its end. -/
def valBuffer (val : CString) : List UInt8 :=
  val.bytes ++
    List.replicate ((align4Up (UInt32.ofNat val.bytes.length)).toNat - val.bytes.length) 0

theorem length_lt_align4Up (h : val.bytes.length ≤ valLenMax) :
    val.bytes.length < (align4Up (UInt32.ofNat val.bytes.length)).toNat := by
  have hlen : (UInt32.ofNat val.bytes.length).toNat = val.bytes.length :=
    UInt32.toNat_ofNat_of_lt' (Nat.lt_of_le_of_lt h (by decide))
  have hroom : (UInt32.ofNat val.bytes.length).toNat < _ := lt_align4Up (by rwa [hlen])
  rwa [hlen] at hroom

/-- A copy into a cleared buffer of its size. -/
theorem strncpy_calloc (h : val.bytes.length ≤ valLenMax) :
    strncpy (some (calloc (align4Up (UInt32.ofNat val.bytes.length)))) val.bytes
      (UInt32.ofNat val.bytes.length).toNat = some (valBuffer val) := by
  have hlen : (UInt32.ofNat val.bytes.length).toNat = val.bytes.length :=
    UInt32.toNat_ofNat_of_lt' (Nat.lt_of_le_of_lt h (by decide))
  have hroom := length_lt_align4Up h
  rw [strncpy, hlen, List.take_length, Nat.sub_self, List.replicate_zero, List.append_nil,
    Option.bind_some, calloc, Region.store_start (by rw [List.length_replicate]; exact hroom.le),
    List.drop_replicate, valBuffer]

theorem itemInit_eq_some {keyHash : UInt32} (h : val.bytes.length ≤ valLenMax) :
    itemInit keyHash val = some ⟨keyHash, some (valBuffer val)⟩ := by
  rw [itemInit, strncpy_calloc h]
  rfl

theorem stringOf_valBuffer (h : val.bytes.length ≤ valLenMax) :
    stringOf (valBuffer val) = some val.bytes := by
  have hroom := length_lt_align4Up h
  obtain ⟨n, hn⟩ := Nat.exists_eq_succ_of_ne_zero (Nat.sub_ne_zero_of_lt hroom)
  have hmem : ∀ c ∈ val.bytes, (c ≠ 0 : Bool) = true := by
    intro c hc
    simpa using fun h0 : c = 0 => val.nul_notMem (h0 ▸ hc)
  rw [stringOf, valBuffer, hn, List.replicate_succ, if_pos (by simp),
    List.takeWhile_append_of_pos hmem, List.takeWhile_cons_of_neg (by simp), List.append_nil]

/-- What `UtilsHashItemGet` puts into the buffer of its caller: the string of the item. -/
theorem getItemVal_of_stringOf {buf valBuf str : List UInt8} (hval : item.val = some valBuf)
    (hstr : stringOf valBuf = some str) (hbuf : str.length ≤ buf.length) :
    getItemVal buf item = some ([item], str ++ buf.drop str.length) := by
  have hcopy : strncpy (some buf) str str.length = some (str ++ buf.drop str.length) := by
    rw [strncpy, List.take_length, Nat.sub_self, List.replicate_zero, List.append_nil,
      Option.bind_some, Region.store_start hbuf]
  simp only [getItemVal, hval, hstr, hcopy, Option.bind_eq_bind, Option.bind_some]

theorem getItemVal_eq_some {buf : List UInt8} (hval : item.val = some (valBuffer val))
    (h : val.bytes.length ≤ valLenMax) (hbuf : val.bytes.length ≤ buf.length) :
    getItemVal buf item = some ([item], val.bytes ++ buf.drop val.bytes.length) :=
  getItemVal_of_stringOf hval (stringOf_valBuffer h) hbuf

/-- An item that is there loses its value, and the new one has nowhere to go. -/
theorem replaceItemVal_eq_none : replaceItemVal val item = none := rfl

/-! ## Chains -/

theorem findItemFromList_of_none {β : Type} {cb : Item → Option (List Item × β)} {keyHash : UInt32}
    {items : List Item} (h : Chains.find Item.keyHash keyHash items = none) :
    findItemFromList cb keyHash items = some (items, none) := by
  induction items with
  | nil => rfl
  | cons pos n ih =>
    by_cases hpos : pos.keyHash = keyHash
    · rw [Chains.find_cons_self hpos] at h
      exact nomatch h
    · rw [Chains.find_cons_ne hpos] at h
      rw [findItemFromList, if_neg hpos, ih h]
      rfl

/-- The callback sees the first item with the hash. -/
theorem findItemFromList_of_some {β : Type} (cb : Item → Option (List Item × β)) {keyHash : UInt32}
    {items : List Item} (h : Chains.find Item.keyHash keyHash items = some item) :
    ∃ l₁ l₂, items = l₁ ++ item :: l₂ ∧ Chains.erase Item.keyHash keyHash items = l₁ ++ l₂ ∧
      findItemFromList cb keyHash items =
        (cb item).map fun r => (l₁ ++ (r.1 ++ l₂), some r.2) := by
  obtain ⟨l₁, l₂, rfl, hl₁, herase⟩ := Chains.exists_split h
  refine ⟨l₁, l₂, rfl, herase, ?_⟩
  have hitem := Chains.tag_of_find h
  clear h herase
  induction l₁ with
  | nil =>
    rw [List.nil_append, findItemFromList, if_pos hitem]
    rfl
  | cons pos l₁ ih =>
    rw [List.map_cons, List.mem_cons, not_or] at hl₁
    rw [List.cons_append, findItemFromList, if_neg (Ne.symm hl₁.1), ih hl₁.2, Option.map_map]
    rfl

/-! ## Buckets -/

/-- Two keys select the same items: their buckets and their hashes are the same. -/
def SameItem (charToInt : UInt8 → Int32) (config : HashConfig) (key key' : CString) : Prop :=
  index charToInt config key = index charToInt config key' ∧
    utilsHashGenerate charToInt key = utilsHashGenerate charToInt key'

theorem SameItem.symm (h : SameItem charToInt config key key') :
    SameItem charToInt config key' key :=
  ⟨h.1.symm, h.2.symm⟩

instance SameItem.decidable (charToInt : UInt8 → Int32) (config : HashConfig)
    (key key' : CString) : Decidable (SameItem charToInt config key key') :=
  inferInstanceAs (Decidable (_ = _ ∧ _ = _))

namespace HashContext

/-- The chain of a key. -/
def bucket (charToInt : UInt8 → Int32) (context : HashContext config) (key : CString) :
    List Item :=
  context.bucketHead.getD (index charToInt config key) []

/-- The item that an operation on a key meets. -/
def lookup (charToInt : UInt8 → Int32) (context : HashContext config) (key : CString) :
    Option Item :=
  Chains.find Item.keyHash (utilsHashGenerate charToInt key) (context.bucket charToInt key)

/-- The table with an item more in front of the chain of a key. -/
def pushItem (charToInt : UInt8 → Int32) (context : HashContext config) (key : CString)
    (item : Item) : HashContext config :=
  context.setBucket (index charToInt config key) (item :: context.bucket charToInt key)

/-- The table without the item that an operation on a key meets. -/
def eraseItem (charToInt : UInt8 → Int32) (context : HashContext config) (key : CString) :
    HashContext config :=
  context.setBucket (index charToInt config key)
    (Chains.erase Item.keyHash (utilsHashGenerate charToInt key) (context.bucket charToInt key))

theorem index_lt (charToInt : UInt8 → Int32) (hmax : 1 ≤ config.bucketMaxLen)
    (context : HashContext config) (key : CString) :
    index charToInt config key < context.bucketHead.length := by
  rw [context.length_bucketHead]
  exact Words.toNat_and_sub_one_lt hmax

theorem getElem?_index (charToInt : UInt8 → Int32) (hmax : 1 ≤ config.bucketMaxLen)
    (context : HashContext config) (key : CString) :
    context.bucketHead[index charToInt config key]? = some (context.bucket charToInt key) := by
  have hlt := index_lt charToInt hmax context key
  rw [bucket, List.getD_eq_getElem?_getD, List.getElem?_eq_getElem hlt, Option.getD_some]

theorem setBucket_self (hmax : 1 ≤ config.bucketMaxLen) (context : HashContext config)
    (key : CString) :
    context.setBucket (index charToInt config key) (context.bucket charToInt key) = context := by
  ext1
  obtain ⟨hlt, hget⟩ := List.getElem?_eq_some_iff.mp
    (getElem?_index charToInt hmax context key)
  change context.bucketHead.set _ _ = context.bucketHead
  rw [← hget, List.set_getElem_self]

/-- The chain that has been set, and the others. -/
theorem bucket_setBucket (hmax : 1 ≤ config.bucketMaxLen) (context : HashContext config)
    (key key' : CString) (items : List Item) :
    (context.setBucket (index charToInt config key) items).bucket charToInt key' =
      if index charToInt config key = index charToInt config key' then items
      else context.bucket charToInt key' := by
  have hlt := index_lt charToInt hmax context key
  rw [bucket, setBucket, List.getD_eq_getElem?_getD, List.getElem?_set]
  split_ifs
  · rfl
  · rw [bucket, List.getD_eq_getElem?_getD]

/-- No chain has two items with one hash. -/
def Unique (context : HashContext config) : Prop :=
  ∀ items ∈ context.bucketHead, Chains.AtMostOne Item.keyHash items

instance Unique.decidable (context : HashContext config) : Decidable context.Unique :=
  inferInstanceAs (Decidable (∀ items ∈ context.bucketHead, (items.map Item.keyHash).Nodup))

theorem unique_create : (utilsHashCreate config).Unique := by
  intro items hitems
  rw [List.eq_of_mem_replicate hitems]
  exact List.nodup_nil

theorem Unique.bucket (h : context.Unique) (hmax : 1 ≤ config.bucketMaxLen) (key : CString) :
    Chains.AtMostOne Item.keyHash (context.bucket charToInt key) :=
  h _ (List.mem_of_getElem? (getElem?_index charToInt hmax context key))

theorem Unique.setBucket (h : context.Unique) {index : ℕ} {items : List Item}
    (hitems : Chains.AtMostOne Item.keyHash items) : (context.setBucket index items).Unique := by
  intro items' hmem
  rcases List.mem_or_eq_of_mem_set hmem with hmem | rfl
  · exact h items' hmem
  · exact hitems

theorem Unique.pushItem (h : context.Unique) (hmax : 1 ≤ config.bucketMaxLen)
    (hhash : item.keyHash = utilsHashGenerate charToInt key)
    (hnone : context.lookup charToInt key = none) :
    (context.pushItem charToInt key item).Unique := by
  apply h.setBucket
  rw [Chains.atMostOne_cons, hhash]
  exact ⟨hnone, h.bucket hmax key⟩

theorem Unique.eraseItem (h : context.Unique) (hmax : 1 ≤ config.bucketMaxLen) (key : CString) :
    (context.eraseItem charToInt key).Unique :=
  h.setBucket (h.bucket hmax key).erase

theorem lookup_create : (utilsHashCreate config).lookup charToInt key = none := by
  have hbucket : (utilsHashCreate config).bucket charToInt key = [] := by
    rw [HashContext.bucket, utilsHashCreate, List.getD_eq_getElem?_getD, List.getElem?_replicate]
    split_ifs <;> rfl
  rw [lookup, hbucket]
  rfl

theorem lookup_pushItem_self (hmax : 1 ≤ config.bucketMaxLen) {item : Item}
    (hhash : item.keyHash = utilsHashGenerate charToInt key) :
    (context.pushItem charToInt key item).lookup charToInt key = some item := by
  rw [lookup, pushItem, bucket_setBucket hmax, if_pos rfl, Chains.find_cons_self hhash]

theorem lookup_pushItem_ne (hmax : 1 ≤ config.bucketMaxLen) {item : Item}
    (hhash : item.keyHash = utilsHashGenerate charToInt key)
    (hne : ¬SameItem charToInt config key key') :
    (context.pushItem charToInt key item).lookup charToInt key' =
      context.lookup charToInt key' := by
  rw [lookup, pushItem, bucket_setBucket hmax, lookup]
  split_ifs with hindex
  · have hother : item.keyHash ≠ utilsHashGenerate charToInt key' := fun h =>
      hne ⟨hindex, hhash.symm.trans h⟩
    rw [Chains.find_cons_ne hother, bucket, bucket, hindex]
  · rfl

theorem lookup_eraseItem_ne (hmax : 1 ≤ config.bucketMaxLen)
    (hne : ¬SameItem charToInt config key key') :
    (context.eraseItem charToInt key).lookup charToInt key' = context.lookup charToInt key' := by
  rw [lookup, eraseItem, bucket_setBucket hmax, lookup]
  split_ifs with hindex
  · rw [Chains.find_erase_ne fun h => hne ⟨hindex, h.symm⟩, bucket, bucket, hindex]
  · rfl

theorem lookup_eraseItem_self (hmax : 1 ≤ config.bucketMaxLen)
    (hone : Chains.AtMostOne Item.keyHash (context.bucket charToInt key)) :
    (context.eraseItem charToInt key).lookup charToInt key = none := by
  rw [lookup, eraseItem, bucket_setBucket hmax, if_pos rfl, Chains.find_erase_self hone]

/-! ## Operations -/

theorem findItem_of_none {β : Type} {cb : Item → Option (List Item × β)}
    (hmax : 1 ≤ config.bucketMaxLen) (h : context.lookup charToInt key = none) :
    context.findItem charToInt key cb = some (context, none) := by
  rw [findItem, getElem?_index charToInt hmax, Option.bind_eq_bind, Option.bind_some,
    findItemFromList_of_none h, Option.bind_eq_bind, Option.bind_some]
  dsimp only
  rw [setBucket_self hmax]

theorem findItem_of_some {β : Type} (cb : Item → Option (List Item × β))
    (hmax : 1 ≤ config.bucketMaxLen) (h : context.lookup charToInt key = some item) :
    ∃ l₁ l₂, context.bucket charToInt key = l₁ ++ item :: l₂ ∧
      Chains.erase Item.keyHash (utilsHashGenerate charToInt key)
        (context.bucket charToInt key) = l₁ ++ l₂ ∧
      context.findItem charToInt key cb = (cb item).map fun r =>
        (context.setBucket (index charToInt config key) (l₁ ++ (r.1 ++ l₂)), some r.2) := by
  obtain ⟨l₁, l₂, hitems, herase, hfind⟩ := findItemFromList_of_some cb h
  refine ⟨l₁, l₂, hitems, herase, ?_⟩
  rw [findItem, getElem?_index charToInt hmax, Option.bind_eq_bind, Option.bind_some, hfind]
  cases cb item with
  | none => rfl
  | some r => rfl

end HashContext

/-- A key whose item is not there gets one. -/
theorem utilsHashItemAdd_of_none (hmax : 1 ≤ config.bucketMaxLen)
    (h : context.lookup charToInt key = none) :
    utilsHashItemAdd charToInt context key val =
      (itemInit (utilsHashGenerate charToInt key) val).map (context.pushItem charToInt key) := by
  rw [utilsHashItemAdd, findItem_of_none hmax h, Option.bind_eq_bind, Option.bind_some]
  dsimp only
  rw [if_pos rfl, addItemToList]
  cases itemInit (utilsHashGenerate charToInt key) val with
  | none => rfl
  | some item =>
    rw [Option.bind_eq_bind, Option.bind_some, getElem?_index charToInt hmax]
    rfl

/-- A key whose item is there cannot be added. -/
theorem utilsHashItemAdd_of_some (hmax : 1 ≤ config.bucketMaxLen)
    (h : context.lookup charToInt key = some item) :
    utilsHashItemAdd charToInt context key val = none := by
  obtain ⟨l₁, l₂, -, -, hfind⟩ := findItem_of_some (replaceItemVal val) hmax h
  rw [utilsHashItemAdd, hfind, replaceItemVal_eq_none]
  rfl

theorem utilsHashItemDel_eq (hmax : 1 ≤ config.bucketMaxLen) (context : HashContext config)
    (key : CString) :
    utilsHashItemDel charToInt context key =
      some (context.eraseItem charToInt key, (context.lookup charToInt key).isSome) := by
  rw [utilsHashItemDel]
  cases h : context.lookup charToInt key with
  | none =>
    have hsame : context.eraseItem charToInt key = context := by
      rw [eraseItem, Chains.erase_of_none h, setBucket_self hmax]
    rw [findItem_of_none hmax h, hsame]
    rfl
  | some item =>
    obtain ⟨l₁, l₂, -, herase, hfind⟩ := findItem_of_some delItemFromList hmax h
    rw [hfind, eraseItem, herase]
    rfl

theorem utilsHashItemGet_of_none (hmax : 1 ≤ config.bucketMaxLen) (buf : List UInt8)
    (h : context.lookup charToInt key = none) :
    utilsHashItemGet charToInt context key buf = some (context, false, buf) := by
  rw [utilsHashItemGet, findItem_of_none hmax h]
  rfl

theorem utilsHashItemGet_of_some (hmax : 1 ≤ config.bucketMaxLen) (buf : List UInt8)
    (h : context.lookup charToInt key = some item) :
    utilsHashItemGet charToInt context key buf =
      (getItemVal buf item).map fun r => (context, true, r.2) := by
  obtain ⟨l₁, l₂, hitems, -, hfind⟩ := findItem_of_some (getItemVal buf) hmax h
  rw [utilsHashItemGet, hfind]
  cases hval : getItemVal buf item with
  | none => rfl
  | some r =>
    have hsame : r.1 = [item] := by
      unfold getItemVal at hval
      obtain ⟨_, -, hval⟩ := Option.bind_eq_some_iff.mp hval
      obtain ⟨_, -, hval⟩ := Option.bind_eq_some_iff.mp hval
      obtain ⟨_, -, hval⟩ := Option.bind_eq_some_iff.mp hval
      cases hval
      rfl
    rw [Option.map_some, hsame, List.singleton_append, ← hitems, setBucket_self hmax]
    rfl

end HyUtils.Hash
