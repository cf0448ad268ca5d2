import HyUtils.Hash.Map

/-!
# What an operation leaves alone

The table does not store its keys: a key is its hash, in the bucket that its index selects. An
operation on one key leaves another one alone when they differ in one of the two; two keys that
agree in both are one key to the table.

## Main results

* `lookup_of_hashStep`: an operation leaves the items of the other keys alone
* `get_unchanged`: so it does not change what `UtilsHashItemGet` returns for them
* `lookup_of_sameItem`: keys with one hash and one index
* `collision_found`: two such keys
-/

namespace HyUtils.Hash

open Runs HashContext

variable {charToInt : UInt8 → Int32} {config : HashConfig} {context context' : HashContext config}
  {key key' : CString} {op : HashOp} {out : HashOut}

theorem keyHash_of_itemInit {keyHash : UInt32} {val : CString} {item : Item}
    (h : itemInit keyHash val = some item) : item.keyHash = keyHash := by
  obtain ⟨buf, -, h⟩ := Option.bind_eq_some_iff.mp h
  cases h
  rfl

/-- **The items of other keys**: an operation that returns leaves them alone. -/
theorem lookup_of_hashStep (hmax : 1 ≤ config.bucketMaxLen)
    (hcall : hashStep charToInt context op = some (context', out))
    (hne : ¬SameItem charToInt config op.key key') :
    context'.lookup charToInt key' = context.lookup charToInt key' := by
  cases op with
  | add key val =>
    obtain ⟨context₁, hadd, hret⟩ := Option.bind_eq_some_iff.mp hcall
    cases hret
    cases hitem : context.lookup charToInt key with
    | some item =>
      rw [utilsHashItemAdd_of_some hmax hitem] at hadd
      exact nomatch hadd
    | none =>
      rw [utilsHashItemAdd_of_none hmax hitem] at hadd
      obtain ⟨item, hinit, rfl⟩ := Option.map_eq_some_iff.mp hadd
      exact lookup_pushItem_ne hmax (keyHash_of_itemInit hinit) hne
  | del key =>
    rw [hashStep, utilsHashItemDel_eq hmax] at hcall
    cases hcall
    exact lookup_eraseItem_ne hmax hne
  | get key buf =>
    obtain ⟨⟨context₁, findFlag, buf'⟩, hget, hret⟩ := Option.bind_eq_some_iff.mp hcall
    cases hret
    cases hitem : context.lookup charToInt key with
    | none =>
      rw [utilsHashItemGet_of_none hmax buf hitem] at hget
      cases hget
      rfl
    | some item =>
      rw [utilsHashItemGet_of_some hmax buf hitem] at hget
      obtain ⟨r, -, hret⟩ := Option.map_eq_some_iff.mp hget
      cases hret
      rfl

/-- What `UtilsHashItemGet` returns depends on the item of the key alone. -/
theorem get_of_lookup (hmax : 1 ≤ config.bucketMaxLen) (buf : List UInt8)
    (h : context'.lookup charToInt key' = context.lookup charToInt key) :
    (utilsHashItemGet charToInt context' key' buf).map Prod.snd =
      (utilsHashItemGet charToInt context key buf).map Prod.snd := by
  cases hitem : context.lookup charToInt key with
  | none =>
    rw [utilsHashItemGet_of_none hmax buf hitem, utilsHashItemGet_of_none hmax buf (h.trans hitem)]
    rfl
  | some item =>
    rw [utilsHashItemGet_of_some hmax buf hitem, utilsHashItemGet_of_some hmax buf (h.trans hitem),
      Option.map_map, Option.map_map]
    rfl

/-- **The frame**: an operation on one key that returns does not change whether another key is
found, nor its value, when their hashes or their indexes differ. -/
theorem get_unchanged (charToInt : UInt8 → Int32) (hmax : 1 ≤ config.bucketMaxLen)
    (hcall : hashStep charToInt context op = some (context', out))
    (hne : ¬SameItem charToInt config op.key key') (buf : List UInt8) :
    (utilsHashItemGet charToInt context' key' buf).map Prod.snd =
      (utilsHashItemGet charToInt context key' buf).map Prod.snd :=
  get_of_lookup hmax buf (lookup_of_hashStep hmax hcall hne)

/-- A table that has "key1". -/
def tableKey1 : HashContext ⟨16⟩ :=
  (utilsHashCreate ⟨16⟩).pushItem signedChar key1 (itemOf signedChar key1 world)

/-- Adding one key leaves the other one as it is. -/
theorem get_unchanged_add :
    ∃ context', hashStep signedChar tableKey1 (.add key0 hello) = some (context', .add) ∧
      (utilsHashItemGet signedChar context' key1 (List.replicate 8 0)).map Prod.snd =
        (utilsHashItemGet signedChar tableKey1 key1 (List.replicate 8 0)).map Prod.snd := by
  have hadd : (hashStep signedChar tableKey1 (.add key0 hello)).map Prod.snd = some .add := by
    decide +kernel
  obtain ⟨⟨context', out⟩, h, rfl⟩ := Option.map_eq_some_iff.mp hadd
  exact ⟨context', h, get_unchanged signedChar (by decide) h (by decide +kernel) _⟩

/-! ## Keys that select the same items -/

/-- Two keys with one hash and one index are one key to the table. -/
theorem lookup_of_sameItem (h : SameItem charToInt config key key') :
    context.lookup charToInt key = context.lookup charToInt key' := by
  rw [lookup, lookup, HashContext.bucket, HashContext.bucket, h.1, h.2]

/-- "Aa". -/
def keyAa : CString := ⟨[65, 97], by decide⟩

/-- "BB". -/
def keyBB : CString := ⟨[66, 66], by decide⟩

/-- Two keys with one hash in one bucket: the value that is added for one is found for the other,
which was not found before. -/
theorem collision_found :
    keyAa ≠ keyBB ∧
    (∃ context, run (hashStep signedChar) (utilsHashCreate ⟨1⟩)
      [.get keyBB (List.replicate 8 0), .add keyAa hello, .get keyBB (List.replicate 8 0)] =
        some (context, [.get false (List.replicate 8 0), .add,
          .get true [104, 101, 108, 108, 111, 0, 0, 0]])) := by
  refine ⟨by decide, _, rfl⟩

end HyUtils.Hash
