import HyUtils.Hash.Frame

/-!
# Values that are read back

A value comes into the table as a string and out of it as the bytes before its terminator, in front
of what the buffer of the caller holds. It is a string again if the buffer makes it one.

The length of a value is kept in 32 bits, so of a value of 4 GiB or more the table has the bytes that
this length counts.

## Main definitions

* `storedLen`: how many bytes of a value the table has
* `Spares`: a call does not take the item of a key away

## Main results

* `stringOf_of_itemInit`: what an item holds
* `stringOf_append`, `stringOf_eq_some_iff`: strings in front of a buffer
* `lookup_of_spares`: an item stays through a run that spares it
* `get_reads_added_iff`: when the buffer read as a string is the value
* `keyToIndex_inBounds`: the index of a key is in bounds
-/

namespace HyUtils.Hash

open Runs HashContext

variable {charToInt : UInt8 → Int32} {config : HashConfig} {context context' : HashContext config}
  {key val : CString} {item : Item}

/-! ## Strings at the start of a buffer -/

theorem stringOf_append {str : List UInt8} (rest : List UInt8) (h : (0 : UInt8) ∉ str) :
    stringOf (str ++ rest) = (stringOf rest).map (str ++ ·) := by
  have hmem : ∀ c ∈ str, (c ≠ 0 : Bool) = true := by
    intro c hc
    simpa using fun h0 : c = 0 => h (h0 ▸ hc)
  unfold stringOf
  simp only [List.mem_append, or_iff_right h, List.takeWhile_append_of_pos hmem]
  split_ifs with h0
  · rfl
  · rfl

/-- A buffer holds a string when it begins with it and its terminator. -/
theorem stringOf_eq_some_iff {buf str : List UInt8} (h : (0 : UInt8) ∉ str) :
    stringOf buf = some str ↔ str ++ [0] <+: buf := by
  constructor
  · intro hstr
    have hmem : 0 ∈ buf := by
      by_contra hmem
      rw [stringOf, if_neg hmem] at hstr
      cases hstr
    obtain ⟨str', rest, rfl, hstr'⟩ := List.eq_append_cons_of_mem hmem
    have hrest : stringOf (0 :: rest) = some [] := by simp [stringOf]
    rw [stringOf_append _ hstr', hrest, Option.map_some, List.append_nil] at hstr
    cases hstr
    exact ⟨rest, by rw [List.append_assoc, List.singleton_append]⟩
  · rintro ⟨rest, rfl⟩
    have hrest : stringOf ([0] ++ rest) = some [] := by simp [stringOf]
    rw [List.append_assoc, stringOf_append _ h, hrest, Option.map_some, List.append_nil]

/-! ## The stored value -/

/-- How many bytes of a value the table has. -/
def storedLen (val : CString) : ℕ := (UInt32.ofNat val.bytes.length).toNat

theorem storedLen_le (val : CString) : storedLen val ≤ val.bytes.length := by
  rw [storedLen, UInt32.toNat_ofNat']
  exact Nat.mod_le _ _

/-- The size of the buffer wraps around for the last lengths. -/
theorem align4Up_le_of_valLenMax_lt {len : UInt32} (h : valLenMax < len.toNat) :
    (align4Up len).toNat ≤ 4 := by
  have hwrap : ∀ k : Fin 7, (align4Up (UInt32.ofNat (2 ^ 32 - 1 - k))).toNat ≤ 4 := by decide
  have hmax : valLenMax = 2 ^ 32 - 8 := rfl
  have hlt : len.toNat < 2 ^ 32 := len.toNat_lt
  have hlen : len = UInt32.ofNat (2 ^ 32 - 1 - (2 ^ 32 - 1 - len.toNat)) := by
    rw [Nat.sub_sub_self (by omega), UInt32.ofNat_toNat]
  rw [hlen]
  exact hwrap ⟨2 ^ 32 - 1 - len.toNat, by omega⟩

/-- A buffer with room for a value has room for the NUL after it. -/
theorem lt_align4Up_of_le {len : UInt32} (h : len.toNat ≤ (align4Up len).toNat) :
    len.toNat < (align4Up len).toNat := by
  by_cases hmax : len.toNat ≤ valLenMax
  · exact lt_align4Up hmax
  · have hsmall := align4Up_le_of_valLenMax_lt (Nat.lt_of_not_le hmax)
    have hmaxEq : valLenMax = 2 ^ 32 - 8 := rfl
    omega

/-- **What an item holds**: as much of its value as the length counts. -/
theorem stringOf_of_itemInit {keyHash : UInt32} (h : itemInit keyHash val = some item) :
    ∃ buf, item.val = some buf ∧ stringOf buf = some (val.bytes.take (storedLen val)) := by
  obtain ⟨buf, hcopy, hitem⟩ := Option.bind_eq_some_iff.mp h
  cases hitem
  refine ⟨buf, rfl, ?_⟩
  have hle := storedLen_le val
  have hlen : (val.bytes.take (storedLen val)).length = storedLen val := by
    rw [List.length_take, Nat.min_eq_left hle]
  change strncpy _ _ (storedLen val) = _ at hcopy
  rw [strncpy, Option.bind_some, Nat.sub_eq_zero_of_le hle, List.replicate_zero, List.append_nil,
    calloc] at hcopy
  by_cases hroom : storedLen val ≤ (align4Up (UInt32.ofNat val.bytes.length)).toNat
  · have hnul := lt_align4Up_of_le hroom
    obtain ⟨n, hn⟩ := Nat.exists_eq_succ_of_ne_zero (Nat.sub_ne_zero_of_lt hnul)
    rw [Region.store_start (by rwa [hlen, List.length_replicate]), hlen, List.drop_replicate]
      at hcopy
    cases hcopy
    have hnotMem : (0 : UInt8) ∉ val.bytes.take (storedLen val) := fun h0 =>
      val.nul_notMem (List.mem_of_mem_take h0)
    have hfree : (align4Up (UInt32.ofNat val.bytes.length)).toNat - storedLen val = n + 1 := hn
    rw [hfree, List.replicate_succ, stringOf_append _ hnotMem]
    simp [stringOf]
  · rw [Region.store_eq_none (by rw [List.length_replicate, hlen]; omega)] at hcopy
    cases hcopy

/-! ## From adding to reading -/

/-- The call does not take the item of a key away: it is no deletion, or one of another item. -/
def Spares (charToInt : UInt8 → Int32) (config : HashConfig) (key : CString) : HashOp → Prop
  | .del key' => ¬SameItem charToInt config key' key
  | _ => True

instance Spares.decidable (key : CString) : ∀ op, Decidable (Spares charToInt config key op)
  | .del _ => inferInstanceAs (Decidable (¬_))
  | .add _ _ | .get _ _ => inferInstanceAs (Decidable True)

/-- A call that spares an item leaves it. -/
theorem lookup_of_hashStep_spares (hmax : 1 ≤ config.bucketMaxLen)
    (h : context.lookup charToInt key = some item) {op : HashOp} {out : HashOut}
    (hspares : Spares charToInt config key op)
    (hcall : hashStep charToInt context op = some (context', out)) :
    context'.lookup charToInt key = some item := by
  by_cases hsame : SameItem charToInt config op.key key
  · cases op with
    | add key' val =>
      -- an item that is there is not added again
      have hthere : context.lookup charToInt key' = some item :=
        (lookup_of_sameItem hsame).trans h
      rw [add_present_faults hmax (hthere ▸ Option.some_ne_none item)] at hcall
      exact nomatch hcall
    | del key' => exact absurd hsame hspares
    | get key' buf =>
      have hthere : context.lookup charToInt key' = some item :=
        (lookup_of_sameItem hsame).trans h
      obtain ⟨⟨context₁, findFlag, buf'⟩, hget, hret⟩ := Option.bind_eq_some_iff.mp hcall
      cases hret
      rw [utilsHashItemGet_of_some hmax buf hthere] at hget
      obtain ⟨r, -, hret⟩ := Option.map_eq_some_iff.mp hget
      cases hret
      exact h
  · exact (lookup_of_hashStep hmax hcall hsame).trans h

/-- **An item stays** through a run of calls that spare it. -/
theorem lookup_of_spares (hmax : 1 ≤ config.bucketMaxLen)
    (h : context.lookup charToInt key = some item) {ops : List HashOp} {outs : List HashOut}
    (hspares : ∀ op ∈ ops, Spares charToInt config key op)
    (hrun : run (hashStep charToInt) context ops = some (context', outs)) :
    context'.lookup charToInt key = some item := by
  refine @run_invariant _ _ _ (hashStep charToInt)
    (fun context : HashContext config => context.lookup charToInt key = some item) _ ?_ _ _ _ _ h
    hspares hrun
  exact fun _ _ _ _ h hspares hcall => lookup_of_hashStep_spares hmax h hspares hcall

/-- A key that has been added selects an item that holds its value. -/
theorem lookup_of_add (hmax : 1 ≤ config.bucketMaxLen)
    (hadd : utilsHashItemAdd charToInt context key val = some context') :
    ∃ item, itemInit (utilsHashGenerate charToInt key) val = some item ∧
      context'.lookup charToInt key = some item := by
  cases hitem : context.lookup charToInt key with
  | some item =>
    rw [utilsHashItemAdd_of_some hmax hitem] at hadd
    exact nomatch hadd
  | none =>
    rw [utilsHashItemAdd_of_none hmax hitem] at hadd
    obtain ⟨item, hinit, rfl⟩ := Option.map_eq_some_iff.mp hadd
    exact ⟨item, hinit, lookup_pushItem_self hmax (keyHash_of_itemInit hinit)⟩

/-- For a value of less than 4 GiB, all of which is stored, the buffer has to hold the NUL. -/
theorem reads_iff_of_lt {buf : List UInt8} (h : val.bytes.length < 2 ^ 32) :
    val.bytes.drop (storedLen val) ++ [0] <+: buf.drop (storedLen val) ↔
      buf[val.bytes.length]? = some 0 := by
  have hlen : storedLen val = val.bytes.length := UInt32.toNat_ofNat_of_lt' h
  rw [hlen, List.drop_length, List.nil_append]
  cases hdrop : buf.drop val.bytes.length with
  | nil =>
    have hshort : buf.length ≤ val.bytes.length := List.drop_eq_nil_iff.mp hdrop
    rw [List.getElem?_eq_none hshort]
    simp
  | cons c rest =>
    have hget : buf[val.bytes.length]? = some c := by
      rw [← Nat.add_zero val.bytes.length, ← List.getElem?_drop, hdrop]
      rfl
    rw [hget, List.cons_prefix_cons]
    simp [eq_comm]

/-- **The value that is read back**: after a value is added, and any calls that do not take it away,
it is found, and the buffer read as a string is the value exactly when it held the bytes of the
value that are not stored, and a NUL, behind those that are: just the NUL, for a value of less than
4 GiB. -/
theorem get_reads_added_iff {added : HashContext config} {ops : List HashOp} {outs : List HashOut}
    {buf : List UInt8} (hmax : 1 ≤ config.bucketMaxLen)
    (hadd : utilsHashItemAdd charToInt context key val = some added)
    (hspares : ∀ op ∈ ops, Spares charToInt config key op)
    (hrun : run (hashStep charToInt) added ops = some (context', outs))
    (hbuf : val.bytes.length < buf.length) :
    ∃ buf', utilsHashItemGet charToInt context' key buf = some (context', true, buf') ∧
      (stringOf buf' = some val.bytes ↔
        val.bytes.drop (storedLen val) ++ [0] <+: buf.drop (storedLen val)) ∧
      (val.bytes.length < 2 ^ 32 →
        (stringOf buf' = some val.bytes ↔ buf[val.bytes.length]? = some 0)) := by
  obtain ⟨item, hinit, hitem⟩ := lookup_of_add hmax hadd
  obtain ⟨valBuf, hval, hstr⟩ := stringOf_of_itemInit hinit
  have hlen : (val.bytes.take (storedLen val)).length = storedLen val := by
    rw [List.length_take, Nat.min_eq_left (storedLen_le val)]
  have hget := utilsHashItemGet_of_some hmax buf (lookup_of_spares hmax hitem hspares hrun)
  have hle := storedLen_le val
  rw [getItemVal_of_stringOf hval hstr (by omega), hlen] at hget
  -- the stored bytes are in front on both sides
  have hreads : stringOf (val.bytes.take (storedLen val) ++ buf.drop (storedLen val)) =
      some val.bytes ↔ val.bytes.drop (storedLen val) ++ [0] <+: buf.drop (storedLen val) := by
    rw [stringOf_eq_some_iff val.nul_notMem]
    conv_lhs => rw [← List.take_append_drop (storedLen val) val.bytes]
    rw [List.append_assoc, List.take_append_drop, List.prefix_append_right_inj]
  exact ⟨_, hget, hreads, fun hlt => hreads.trans (reads_iff_of_lt hlt)⟩

/-- A buffer that held a longer string: what is read is neither the value nor the old string. -/
theorem get_reads_more :
    (run (hashStep signedChar) (utilsHashCreate ⟨16⟩)
        [.add key0 hello, .get key0 [119, 119, 119, 119, 119, 119, 119, 119, 0]]).map Prod.snd =
      some [.add, .get true [104, 101, 108, 108, 111, 119, 119, 119, 0]] ∧
    stringOf [104, 101, 108, 108, 111, 119, 119, 119, 0] =
      some [104, 101, 108, 108, 111, 119, 119, 119] ∧
    hello.bytes ≠ [104, 101, 108, 108, 111, 119, 119, 119] := by decide +kernel

/-- A value that is read into a buffer of zeros after another one has been added and deleted. -/
theorem get_reads_added_iff_zeros :
    ∃ (added context' : HashContext ⟨16⟩) (outs : List HashOut) (buf' : List UInt8),
      utilsHashItemAdd signedChar (utilsHashCreate ⟨16⟩) key0 hello = some added ∧
      run (hashStep signedChar) added [.add key1 world, .del key1] = some (context', outs) ∧
      utilsHashItemGet signedChar context' key0 (List.replicate 8 0) =
        some (context', true, buf') ∧
      (stringOf buf' = some hello.bytes ↔
        hello.bytes.drop (storedLen hello) ++ [0] <+:
          (List.replicate 8 0).drop (storedLen hello)) ∧
      (hello.bytes.length < 2 ^ 32 →
        (stringOf buf' = some hello.bytes ↔
          (List.replicate 8 (0 : UInt8))[hello.bytes.length]? = some 0)) := by
  have hadd : (utilsHashItemAdd signedChar (utilsHashCreate ⟨16⟩) key0 hello).isSome := by
    decide +kernel
  obtain ⟨added, hadded⟩ := Option.isSome_iff_exists.mp hadd
  have hrun : ((utilsHashItemAdd signedChar (utilsHashCreate ⟨16⟩) key0 hello).bind fun added =>
      run (hashStep signedChar) added [.add key1 world, .del key1]).isSome := by
    decide +kernel
  rw [hadded, Option.bind_some] at hrun
  obtain ⟨⟨context', outs⟩, hran⟩ := Option.isSome_iff_exists.mp hrun
  obtain ⟨buf', hget, hiff, hlt⟩ := get_reads_added_iff (by decide) hadded
    (by decide +kernel : ∀ op ∈ [HashOp.add key1 world, .del key1], Spares signedChar ⟨16⟩ key0 op)
    hran (by decide : hello.bytes.length < (List.replicate 8 (0 : UInt8)).length)
  exact ⟨added, context', outs, buf', hadded, hran, hget, hiff, hlt⟩

/-! ## The index of a key -/

/-- **The index of a key** is not negative and less than the number of buckets, whatever that number
is, so that it is in bounds of every array of that length. -/
theorem keyToIndex_inBounds (charToInt : UInt8 → Int32) {bucketMaxLen : Int32}
    (hmax : 1 ≤ bucketMaxLen) (key : CString) :
    0 ≤ keyToIndex charToInt bucketMaxLen key ∧
      keyToIndex charToInt bucketMaxLen key < bucketMaxLen ∧
      ∀ {α : Type} (array : List α), array.length = bucketMaxLen.toInt.toNat →
        (array[index charToInt ⟨bucketMaxLen⟩ key]?).isSome := by
  have hlt : index charToInt ⟨bucketMaxLen⟩ key < bucketMaxLen.toInt.toNat :=
    Words.toNat_and_sub_one_lt hmax
  obtain ⟨hnonneg, hless⟩ := Words.nonneg_and_lt_of_toNat_lt hlt
  refine ⟨hnonneg, hless, ?_⟩
  intro α array harray
  rw [List.getElem?_eq_getElem (harray ▸ hlt)]
  rfl

/-- A key with a byte above 127 and seven buckets: the accumulated product is negative. -/
theorem keyToIndex_inBounds_seven :
    0 ≤ keyToIndex signedChar 7 ⟨[195, 169, 107, 130], by decide⟩ ∧
      keyToIndex signedChar 7 ⟨[195, 169, 107, 130], by decide⟩ < 7 ∧
      ∀ {α : Type} (array : List α), array.length = (7 : Int32).toInt.toNat →
        (array[index signedChar ⟨7⟩ ⟨[195, 169, 107, 130], by decide⟩]?).isSome :=
  keyToIndex_inBounds signedChar (by decide) ⟨[195, 169, 107, 130], by decide⟩

end HyUtils.Hash
