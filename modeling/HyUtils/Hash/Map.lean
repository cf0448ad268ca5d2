import HyUtils.Foundation.Run
import HyUtils.Hash.Items
import Mathlib.Logic.Function.Basic

/-!
# The hash table as a finite map

A table is meant to be a map from keys to values. It is one as long as no key is added that is
there already: `_replace_item_val` frees the buffer that it has just allocated, in place of the old
one, and writes the value to a null pointer.

## Main definitions

* `mapStep`: the map
* `Admits`: a call adds no key that is there, and values and buffers have room
* `Represents keys context m`: the table holds the map `m` of some keys

## Main results

* `Represents.step`: one call under the condition keeps the map
* `hash_refines_map`: runs of such calls return what the map says
* `add_twice_faults`: a key that is added twice
-/

namespace HyUtils.Hash

open Runs HashContext

/-- The map: the value of each key. -/
abbrev KeyMap := CString → Option CString

/-- What a call does to the map. -/
def mapNext (m : KeyMap) : HashOp → KeyMap
  | .add key val => Function.update m key (some val)
  | .del key => Function.update m key none
  | .get _ _ => m

/-- What a call returns of the map: `UtilsHashItemGet` puts the value in front of the buffer. -/
def mapOut (m : KeyMap) : HashOp → HashOut
  | .add _ _ => .add
  | .del key => .del (m key).isSome
  | .get key buf =>
    match m key with
    | none => .get false buf
    | some val => .get true (val.bytes ++ buf.drop val.bytes.length)

/-- The map as a component. -/
def mapStep (m : KeyMap) (op : HashOp) : Option (KeyMap × HashOut) :=
  some (mapNext m op, mapOut m op)

variable {charToInt : UInt8 → Int32} {config : HashConfig} {context : HashContext config}
  {keys : List CString} {m : KeyMap} {key : CString} {op : HashOp}

/-- The string that an item holds. -/
def Item.string (item : Item) : Option (List UInt8) := item.val.bind stringOf

/-- A call adds no key that is there, and no value that is too long; and the buffer it is given has
room for the value it finds. -/
def Admits (charToInt : UInt8 → Int32) (context : HashContext config) : HashOp → Prop
  | .add key val => context.lookup charToInt key = none ∧ val.bytes.length ≤ valLenMax
  | .del _ => True
  | .get key buf =>
    ∀ item ∈ context.lookup charToInt key, ∀ str ∈ item.string, str.length ≤ buf.length

instance Admits.decidable (context : HashContext config) :
    ∀ op, Decidable (Admits charToInt context op)
  | .add _ _ => inferInstanceAs (Decidable (_ = _ ∧ _ ≤ _))
  | .del _ => inferInstanceAs (Decidable True)
  | .get key _ => inferInstanceAs (Decidable
      (∀ item ∈ context.lookup charToInt key, ∀ str ∈ item.string, _ ≤ _))

/-- The item of a key with a value. -/
def itemOf (charToInt : UInt8 → Int32) (key val : CString) : Item :=
  ⟨utilsHashGenerate charToInt key, some (valBuffer val)⟩

/-- **The table holds a map** of some keys: each of them selects the item with its value, and no
chain has two items with one hash. -/
structure Represents (charToInt : UInt8 → Int32) (keys : List CString)
    (context : HashContext config) (m : KeyMap) : Prop where
  lookup : ∀ key ∈ keys, context.lookup charToInt key = (m key).map (itemOf charToInt key)
  fits : ∀ key val, m key = some val → val.bytes.length ≤ valLenMax
  unique : context.Unique

theorem represents_create : Represents charToInt keys (utilsHashCreate config) fun _ => none :=
  { lookup := fun _ _ => lookup_create
    fits := fun _ _ h => nomatch h
    unique := unique_create }

/-- A call leaves the other keys alone. -/
theorem mapNext_of_ne (h : key ≠ op.key) : mapNext m op key = m key := by
  cases op with
  | add | del => exact Function.update_of_ne h _ _
  | get => rfl

/-- The values stay short. -/
theorem fits_mapNext (hfits : ∀ key val, m key = some val → val.bytes.length ≤ valLenMax)
    (hadmits : Admits charToInt context op) {val : CString} (h : mapNext m op key = some val) :
    val.bytes.length ≤ valLenMax := by
  by_cases hkey : key = op.key
  · subst hkey
    cases op with
    | add key val' =>
      obtain rfl : val' = val := by simpa [mapNext, HashOp.key] using h
      exact hadmits.2
    | del => simp [mapNext, HashOp.key] at h
    | get => exact hfits _ _ h
  · rw [mapNext_of_ne hkey] at h
    exact hfits key val h

/-- What the keys select, after the item of one of them is replaced. -/
theorem lookup_update {context' : HashContext config} {val : Option CString}
    (hlookup : ∀ key ∈ keys, context.lookup charToInt key = (m key).map (itemOf charToInt key))
    (hself : context'.lookup charToInt key = val.map (itemOf charToInt key))
    (hother : ∀ key' ∈ keys, key' ≠ key →
      context'.lookup charToInt key' = context.lookup charToInt key') :
    ∀ key' ∈ keys, context'.lookup charToInt key' =
      (Function.update m key val key').map (itemOf charToInt key') := by
  intro key' hkey'
  by_cases hsame : key' = key
  · subst hsame
    rw [hself, Function.update_self]
  · rw [hother key' hkey' hsame, hlookup key' hkey', Function.update_of_ne hsame]

theorem Represents.add (h : Represents charToInt keys context m) (hmax : 1 ≤ config.bucketMaxLen)
    (hother : ∀ key' ∈ keys, key' ≠ key → ¬SameItem charToInt config key key') {val : CString}
    (hadmits : Admits charToInt context (.add key val)) :
    ∃ context', hashStep charToInt context (.add key val) = some (context', .add) ∧
      Represents charToInt keys context' (mapNext m (.add key val)) := by
  have hnone := hadmits.1
  have hlen := hadmits.2
  refine ⟨context.pushItem charToInt key (itemOf charToInt key val), ?_, ?_, ?_,
    h.unique.pushItem hmax rfl hnone⟩
  · rw [hashStep, utilsHashItemAdd_of_none hmax hnone, itemInit_eq_some hlen]
    rfl
  · apply lookup_update h.lookup
    · exact lookup_pushItem_self hmax rfl
    · intro key' hkey' hne
      exact lookup_pushItem_ne hmax rfl (hother key' hkey' hne)
  · intro key' val' hval'
    exact fits_mapNext h.fits hadmits hval'

theorem Represents.del (h : Represents charToInt keys context m) (hmax : 1 ≤ config.bucketMaxLen)
    (hother : ∀ key' ∈ keys, key' ≠ key → ¬SameItem charToInt config key key')
    (hkey : key ∈ keys) (hadmits : Admits charToInt context (.del key)) :
    ∃ context', hashStep charToInt context (.del key) = some (context', .del (m key).isSome) ∧
      Represents charToInt keys context' (mapNext m (.del key)) := by
  refine ⟨context.eraseItem charToInt key, ?_, ?_, ?_, h.unique.eraseItem hmax key⟩
  · rw [hashStep, utilsHashItemDel_eq hmax, h.lookup key hkey, Option.isSome_map]
    rfl
  · apply lookup_update h.lookup
    · exact lookup_eraseItem_self hmax (h.unique.bucket hmax key)
    · intro key' hkey' hne
      exact lookup_eraseItem_ne hmax (hother key' hkey' hne)
  · intro key' val' hval'
    exact fits_mapNext h.fits hadmits hval'

theorem Represents.get (h : Represents charToInt keys context m) (hmax : 1 ≤ config.bucketMaxLen)
    (hkey : key ∈ keys) {buf : List UInt8} (hadmits : Admits charToInt context (.get key buf)) :
    hashStep charToInt context (.get key buf) = some (context, mapOut m (.get key buf)) := by
  have hitem := h.lookup key hkey
  cases hval : m key with
  | none =>
    rw [hval, Option.map_none] at hitem
    rw [hashStep, utilsHashItemGet_of_none hmax buf hitem, mapOut, hval]
    rfl
  | some val =>
    rw [hval, Option.map_some] at hitem
    have hlen := h.fits key val hval
    have hroom : val.bytes.length ≤ buf.length := hadmits _ hitem _ (stringOf_valBuffer hlen)
    rw [hashStep, utilsHashItemGet_of_some hmax buf hitem, getItemVal_eq_some rfl hlen hroom,
      mapOut, hval]
    rfl

/-- **One call** under the condition keeps the map and returns what it says, when no two keys have
one hash. -/
theorem Represents.step (h : Represents charToInt keys context m)
    (hmax : 1 ≤ config.bucketMaxLen)
    (hinj : ∀ key ∈ keys, ∀ key' ∈ keys,
      utilsHashGenerate charToInt key = utilsHashGenerate charToInt key' → key = key')
    (hkey : op.key ∈ keys) (hadmits : Admits charToInt context op) :
    ∃ context', hashStep charToInt context op = some (context', mapOut m op) ∧
      Represents charToInt keys context' (mapNext m op) := by
  have hother : ∀ key' ∈ keys, key' ≠ op.key → ¬SameItem charToInt config op.key key' := by
    intro key' hkey' hne hsame
    exact hne (hinj _ hkey _ hkey' hsame.2).symm
  cases op with
  | add key val => exact h.add hmax hother hadmits
  | del key => exact h.del hmax hother hkey hadmits
  | get key buf => exact ⟨context, h.get hmax hkey hadmits, h⟩

/-- **The table is a finite map**: in every run over keys of which no two have one hash, and in
which no key is added that is there already, each call returns what the map says. -/
theorem hash_refines_map (charToInt : UInt8 → Int32) (hmax : 1 ≤ config.bucketMaxLen)
    {ops : List HashOp}
    (hinj : ∀ op ∈ ops, ∀ op' ∈ ops,
      utilsHashGenerate charToInt op.key = utilsHashGenerate charToInt op'.key → op.key = op'.key)
    (hops : EachStep (hashStep charToInt) (Admits charToInt) (utilsHashCreate config) ops) :
    ∃ context m outs,
      run (hashStep charToInt) (utilsHashCreate config) ops = some (context, outs) ∧
        run mapStep (fun _ => none) ops = some (m, outs) := by
  have hkeys : ∀ key ∈ ops.map HashOp.key, ∀ key' ∈ ops.map HashOp.key,
      utilsHashGenerate charToInt key = utilsHashGenerate charToInt key' → key = key' := by
    simpa using hinj
  have hstep (context : HashContext config) (m : KeyMap) (op : HashOp)
      (h : Represents charToInt (ops.map HashOp.key) context m) (hop : op ∈ ops)
      (hadmits : Admits charToInt context op) :
      ∃ context' m' out, hashStep charToInt context op = some (context', out) ∧
        mapStep m op = some (m', out) ∧
          Represents charToInt (ops.map HashOp.key) context' m' := by
    obtain ⟨context', hcall, h'⟩ := h.step hmax hkeys (List.mem_map_of_mem hop) hadmits
    exact ⟨context', mapNext m op, mapOut m op, hcall, rfl, h'⟩
  obtain ⟨context, m, outs, hrun, hmap, -⟩ :=
    run_simulation_of_eachStep _ hstep represents_create (fun _ h => h) hops
  exact ⟨context, m, outs, hrun, hmap⟩

/-! ## A key that is there -/

/-- **A key that is there** cannot be added: the call uses a null pointer. -/
theorem add_present_faults (hmax : 1 ≤ config.bucketMaxLen) {val : CString}
    (h : context.lookup charToInt key ≠ none) :
    hashStep charToInt context (.add key val) = none := by
  obtain ⟨item, hitem⟩ := Option.ne_none_iff_exists'.mp h
  rw [hashStep, utilsHashItemAdd_of_some hmax hitem]
  rfl

/-- A `hal_char_t` that is signed. -/
def signedChar (c : UInt8) : Int32 := c.toInt8.toInt32

/-- "key0". -/
def key0 : CString := ⟨[107, 101, 121, 48], by decide⟩

/-- "key1". -/
def key1 : CString := ⟨[107, 101, 121, 49], by decide⟩

/-- "hello". -/
def hello : CString := ⟨[104, 101, 108, 108, 111], by decide⟩

/-- "world". -/
def world : CString := ⟨[119, 111, 114, 108, 100], by decide⟩

/-- Two keys are added and read, one of them is deleted and added again with another value. -/
def hashOps : List HashOp :=
  [.add key0 hello, .get key0 (List.replicate 64 0), .add key1 world, .del key0,
    .get key0 (List.replicate 64 0), .get key1 (List.replicate 64 0), .del key0, .add key0 world,
    .get key0 (List.replicate 64 0)]

/-- The table and the map return the same for them. -/
theorem hash_refines_map_two_keys :
    ∃ context m outs,
      run (hashStep signedChar) (utilsHashCreate ⟨16⟩) hashOps = some (context, outs) ∧
        run mapStep (fun _ => none) hashOps = some (m, outs) :=
  hash_refines_map signedChar (by decide) (by decide +kernel) (by decide +kernel)

/-- A key is added with one value and then with another. The map has the second value, and the table
does not return. -/
theorem add_twice_faults :
    run (hashStep signedChar) (utilsHashCreate ⟨16⟩) [.add key0 hello, .add key0 world] = none ∧
      ∃ m, run mapStep (fun _ => none) [.add key0 hello, .add key0 world] =
        some (m, [.add, .add]) ∧ m key0 = some world := by
  refine ⟨?_, _, rfl, ?_⟩
  · decide +kernel
  · decide +kernel

end HyUtils.Hash
