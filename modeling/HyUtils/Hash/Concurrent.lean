import HyUtils.Hash.Frame
import Mathlib.Data.Fintype.Basic

/-!
# Concurrent operations on the hash table

Each bucket has a mutex, and a section under it is one step. `UtilsHashItemAdd` has two of them: it
looks for the key, and when it does not find it, inserts a new item later. What the search has seen
may not be so any more when the item is inserted.

## Main definitions

* `HashSystem config Caller`: a table, and what each caller is about to insert
* `sectionStep`: one section of one caller
* `SearchesAlone`: no key is looked for to be added while another caller is about to insert it
* `Reserved`: what a caller is about to insert is not there, and no other caller is to insert it

## Main results

* `search_insert`: the sections of an addition that nothing comes between are `utilsHashItemAdd`
* `Reserved.step`: a section under the condition keeps what is reserved
* `chains_unique`: in runs of such sections no chain has two items with one hash, and a deleted key
  is absent
* `not_unique_of_pending`: two callers that are about to insert one key
* `duplicate_after_two_adds`: two callers add a new key, and it outlives its deletion
-/

namespace HyUtils.Hash

open Runs HashContext

/-- A table and its callers: the key and the value that a caller has not found and is about to
insert. -/
structure HashSystem (config : HashConfig) (Caller : Type) where
  context : HashContext config
  pending : Caller → Option (CString × CString)

/-- The sections under a mutex: the two of `UtilsHashItemAdd`, and that of `UtilsHashItemDel`. -/
inductive SectionOp (Caller : Type)
  | search (caller : Caller) (key val : CString)
  | insert (caller : Caller)
  | del (caller : Caller) (key : CString)

/-- What a section shows: whether it has found the key. -/
inductive SectionOut
  | found (findFlag : Bool)
  | inserted
  deriving DecidableEq

variable {charToInt : UInt8 → Int32} {config : HashConfig} {Caller : Type} [DecidableEq Caller]
  {s s' : HashSystem config Caller} {op : SectionOp Caller} {out : SectionOut} {key val : CString}

/-- One section of one caller; a caller that is about to insert does nothing else. -/
def sectionStep (charToInt : UInt8 → Int32) (s : HashSystem config Caller) :
    SectionOp Caller → Option (HashSystem config Caller × SectionOut)
  | .search caller key val =>
    if s.pending caller = none then do
      let (context, found) ← s.context.findItem charToInt key (replaceItemVal val)
      -- only what is not found is inserted
      let pending := if found = none then Function.update s.pending caller (some (key, val))
        else s.pending
      some ({ context, pending }, .found found.isSome)
    else none
  | .insert caller => do
    let (key, val) ← s.pending caller
    let context ← s.context.addItemToList charToInt key val
    some ({ context, pending := Function.update s.pending caller none }, .inserted)
  | .del caller key =>
    if s.pending caller = none then do
      let (context, findFlag) ← utilsHashItemDel charToInt s.context key
      some ({ s with context }, .found findFlag)
    else none

/-- A new table, and no caller about to insert. -/
def HashSystem.create (config : HashConfig) (Caller : Type) : HashSystem config Caller :=
  { context := utilsHashCreate config, pending := fun _ => none }

/-- A section looks for a key to be added only while no caller is about to insert an item with its
hash into its bucket. -/
def SearchesAlone (charToInt : UInt8 → Int32) (s : HashSystem config Caller) :
    SectionOp Caller → Prop
  | .search _ key _ =>
    ∀ caller, ∀ item ∈ s.pending caller, ¬SameItem charToInt config item.1 key
  | _ => True

omit [DecidableEq Caller] in
instance SearchesAlone.decidable [Fintype Caller] (s : HashSystem config Caller) :
    ∀ op, Decidable (SearchesAlone charToInt s op)
  | .search _ key _ =>
    inferInstanceAs (Decidable (∀ caller, ∀ item ∈ s.pending caller, ¬SameItem _ _ item.1 key))
  | .insert _ | .del _ _ => inferInstanceAs (Decidable True)

/-- What a caller is about to insert is not there, and no other caller is about to insert it. -/
structure Reserved (charToInt : UInt8 → Int32) (s : HashSystem config Caller) : Prop where
  unique : s.context.Unique
  absent : ∀ caller key val, s.pending caller = some (key, val) →
    s.context.lookup charToInt key = none
  apart : ∀ caller caller' key key' val val', s.pending caller = some (key, val) →
    s.pending caller' = some (key', val') → SameItem charToInt config key key' → caller = caller'

/-! ## Sections -/

/-- What a search for a new key does. -/
theorem search_eq_some {caller : Caller} (hmax : 1 ≤ config.bucketMaxLen)
    (h : sectionStep charToInt s (.search caller key val) = some (s', out)) :
    s.pending caller = none ∧ s.context.lookup charToInt key = none ∧
      s' = { s with pending := Function.update s.pending caller (some (key, val)) } ∧
      out = .found false := by
  rw [sectionStep] at h
  split_ifs at h with hidle
  cases hitem : s.context.lookup charToInt key with
  | none =>
    rw [findItem_of_none hmax hitem] at h
    cases h
    exact ⟨hidle, rfl, rfl, rfl⟩
  | some item =>
    -- the callback would replace the value, and uses a null pointer
    obtain ⟨l₁, l₂, -, -, hfind⟩ := findItem_of_some (replaceItemVal val) hmax hitem
    rw [hfind, replaceItemVal_eq_none] at h
    exact nomatch h

theorem search_of_none {caller : Caller} (hmax : 1 ≤ config.bucketMaxLen)
    (hidle : s.pending caller = none) (hitem : s.context.lookup charToInt key = none) :
    sectionStep charToInt s (.search caller key val) =
      some ({ s with pending := Function.update s.pending caller (some (key, val)) },
        .found false) := by
  rw [sectionStep, if_pos hidle, findItem_of_none hmax hitem]
  rfl

theorem addItemToList_eq (hmax : 1 ≤ config.bucketMaxLen) (context : HashContext config) :
    context.addItemToList charToInt key val =
      (itemInit (utilsHashGenerate charToInt key) val).map (context.pushItem charToInt key) := by
  rw [addItemToList]
  cases itemInit (utilsHashGenerate charToInt key) val with
  | none => rfl
  | some item =>
    rw [Option.bind_eq_bind, Option.bind_some, getElem?_index charToInt hmax]
    rfl

/-- What an insertion does. -/
theorem insert_eq_some {caller : Caller} (hmax : 1 ≤ config.bucketMaxLen)
    (h : sectionStep charToInt s (.insert caller) = some (s', out)) :
    ∃ key val item, s.pending caller = some (key, val) ∧
      item.keyHash = utilsHashGenerate charToInt key ∧
      s' = { context := s.context.pushItem charToInt key item
             pending := Function.update s.pending caller none } := by
  obtain ⟨⟨key, val⟩, hpending, h⟩ := Option.bind_eq_some_iff.mp h
  obtain ⟨context, hadd, h⟩ := Option.bind_eq_some_iff.mp h
  cases h
  rw [addItemToList_eq hmax] at hadd
  obtain ⟨item, hinit, rfl⟩ := Option.map_eq_some_iff.mp hadd
  exact ⟨key, val, item, hpending, keyHash_of_itemInit hinit, rfl⟩

theorem insert_of_pending (charToInt : UInt8 → Int32) {caller : Caller}
    (hmax : 1 ≤ config.bucketMaxLen) (hpending : s.pending caller = some (key, val))
    (hlen : val.bytes.length ≤ valLenMax) :
    sectionStep charToInt s (.insert caller) =
      some ({ context := s.context.pushItem charToInt key (itemOf charToInt key val)
              pending := Function.update s.pending caller none }, .inserted) := by
  rw [sectionStep, hpending, Option.bind_eq_bind, Option.bind_some]
  dsimp only
  rw [addItemToList_eq hmax, itemInit_eq_some hlen]
  rfl

/-- What a deletion does. -/
theorem del_eq_some {caller : Caller} (hmax : 1 ≤ config.bucketMaxLen)
    (h : sectionStep charToInt s (.del caller key) = some (s', out)) :
    s' = { s with context := s.context.eraseItem charToInt key } := by
  rw [sectionStep] at h
  split_ifs at h
  rw [utilsHashItemDel_eq hmax] at h
  cases h
  rfl

/-- **An addition that nothing comes between** is `UtilsHashItemAdd`. -/
theorem search_insert {caller : Caller} {context : HashContext config}
    (hmax : 1 ≤ config.bucketMaxLen) (hidle : s.pending caller = none)
    (h : utilsHashItemAdd charToInt s.context key val = some context) :
    run (sectionStep charToInt) s [.search caller key val, .insert caller] =
      some ({ s with context }, [.found false, .inserted]) := by
  cases hitem : s.context.lookup charToInt key with
  | some item =>
    rw [utilsHashItemAdd_of_some hmax hitem] at h
    exact nomatch h
  | none =>
    rw [utilsHashItemAdd_of_none hmax hitem, ← addItemToList_eq hmax] at h
    have hrestored : Function.update (Function.update s.pending caller (some (key, val))) caller
        none = s.pending := by
      rw [Function.update_idem, ← hidle, Function.update_eq_self]
    refine run_cons_eq_some.mpr ⟨_, _, _, search_of_none hmax hidle hitem,
      run_cons_eq_some.mpr ⟨_, .inserted, [], ?_, rfl, rfl⟩, rfl⟩
    rw [sectionStep]
    dsimp only
    rw [Function.update_self, Option.bind_eq_bind, Option.bind_some]
    dsimp only
    rw [h, hrestored]
    rfl

/-! ## What is reserved -/

section Update

variable {β : Type} {f : Caller → Option β} {caller caller' : Caller} {x y : β}

theorem update_some_eq_some :
    Function.update f caller (some x) caller' = some y ↔
      caller' = caller ∧ x = y ∨ caller' ≠ caller ∧ f caller' = some y := by
  by_cases h : caller' = caller
  · subst h
    simp
  · simp [h]

theorem update_none_eq_some :
    Function.update f caller none caller' = some y ↔ caller' ≠ caller ∧ f caller' = some y := by
  by_cases h : caller' = caller
  · subst h
    simp
  · simp [h]

end Update

omit [DecidableEq Caller] in
theorem reserved_create : Reserved charToInt (HashSystem.create config Caller) where
  unique := unique_create
  absent := fun _ _ _ h => nomatch h
  apart := fun _ _ _ _ _ _ h => nomatch h

/-- An item that is not there is not there after a deletion either. -/
theorem lookup_eraseItem_of_none {context : HashContext config} {key' : CString}
    (hmax : 1 ≤ config.bucketMaxLen) (hunique : context.Unique)
    (h : context.lookup charToInt key' = none) :
    (context.eraseItem charToInt key).lookup charToInt key' = none := by
  by_cases hsame : SameItem charToInt config key key'
  · rw [← lookup_of_sameItem hsame]
    exact lookup_eraseItem_self hmax (hunique.bucket hmax key)
  · rwa [lookup_eraseItem_ne hmax hsame]

/-- **One section** under the condition keeps what is reserved. -/
theorem Reserved.step (h : Reserved charToInt s) (hmax : 1 ≤ config.bucketMaxLen)
    (halone : SearchesAlone charToInt s op) (hstep : sectionStep charToInt s op = some (s', out)) :
    Reserved charToInt s' := by
  obtain ⟨unique, absent, apart⟩ := h
  cases op with
  | search caller key val =>
    obtain ⟨hidle, hnone, rfl, -⟩ := search_eq_some hmax hstep
    have halone : ∀ caller, ∀ item ∈ s.pending caller, ¬SameItem charToInt config item.1 key :=
      halone
    refine ⟨unique, ?_, ?_⟩
    · intro caller' key' val' hpending
      rcases update_some_eq_some.mp hpending with ⟨-, hval⟩ | ⟨-, hpending⟩
      · cases hval
        exact hnone
      · exact absent caller' key' val' hpending
    · -- no other caller is to insert the key, as the search is alone
      intro caller₁ caller₂ key₁ key₂ val₁ val₂ hpending₁ hpending₂ hsame
      rcases update_some_eq_some.mp hpending₁ with ⟨heq₁, hval₁⟩ | ⟨-, hold₁⟩
      · rcases update_some_eq_some.mp hpending₂ with ⟨heq₂, -⟩ | ⟨-, hold₂⟩
        · rw [heq₁, heq₂]
        · cases hval₁
          exact absurd hsame.symm (halone caller₂ (key₂, val₂) hold₂)
      · rcases update_some_eq_some.mp hpending₂ with ⟨-, hval₂⟩ | ⟨-, hold₂⟩
        · cases hval₂
          exact absurd hsame (halone caller₁ (key₁, val₁) hold₁)
        · exact apart caller₁ caller₂ key₁ key₂ val₁ val₂ hold₁ hold₂ hsame
  | insert caller =>
    obtain ⟨key, val, item, hpending, hhash, rfl⟩ := insert_eq_some hmax hstep
    refine ⟨unique.pushItem hmax hhash (absent caller key val hpending), ?_, ?_⟩
    · intro caller' key' val' hpending'
      obtain ⟨hother, hpending'⟩ := update_none_eq_some.mp hpending'
      have hne : ¬SameItem charToInt config key key' := fun hsame =>
        hother (apart caller caller' key key' val val' hpending hpending' hsame).symm
      rw [lookup_pushItem_ne hmax hhash hne]
      exact absent caller' key' val' hpending'
    · intro caller₁ caller₂ key₁ key₂ val₁ val₂ hpending₁ hpending₂
      obtain ⟨-, hpending₁⟩ := update_none_eq_some.mp hpending₁
      obtain ⟨-, hpending₂⟩ := update_none_eq_some.mp hpending₂
      exact apart caller₁ caller₂ key₁ key₂ val₁ val₂ hpending₁ hpending₂
  | del caller key =>
    obtain rfl := del_eq_some hmax hstep
    refine ⟨unique.eraseItem hmax key, ?_, apart⟩
    intro caller' key' val' hpending
    exact lookup_eraseItem_of_none hmax unique (absent caller' key' val' hpending)

/-! ## Runs -/

/-- What a section shows: the chains stay free of duplicates, and a key that is deleted is absent.
-/
def KeepsUnique (charToInt : UInt8 → Int32) (s : HashSystem config Caller)
    (op : SectionOp Caller) : Prop :=
  s.context.Unique ∧ ∀ s' out, sectionStep charToInt s op = some (s', out) →
    s'.context.Unique ∧ ∀ caller key, op = .del caller key → s'.context.lookup charToInt key = none

theorem Reserved.keepsUnique (h : Reserved charToInt s) (hmax : 1 ≤ config.bucketMaxLen)
    (halone : SearchesAlone charToInt s op) : KeepsUnique charToInt s op := by
  refine ⟨h.unique, fun s' out hstep => ⟨(h.step hmax halone hstep).unique, ?_⟩⟩
  rintro caller key rfl
  rw [del_eq_some hmax hstep]
  exact lookup_eraseItem_self hmax (h.unique.bucket hmax key)

/-- **No duplicates**: in every interleaving in which no key is looked for to be added while another
caller is about to insert it, no chain ever has two items with one hash, and a key that is deleted
is absent. -/
theorem chains_unique (charToInt : UInt8 → Int32) (hmax : 1 ≤ config.bucketMaxLen)
    {ops : List (SectionOp Caller)}
    (hops : EachStep (sectionStep charToInt) (SearchesAlone charToInt)
      (HashSystem.create config Caller) ops) :
    EachStep (sectionStep charToInt) (KeepsUnique charToInt) (HashSystem.create config Caller)
      ops := by
  refine eachStep_of_eachStep (Reserved charToInt) ?_ ?_ reserved_create hops
  · intro s op h halone
    exact h.keepsUnique hmax halone
  · intro s op s' out h halone hstep
    exact h.step hmax halone hstep

/-- **Two callers that are about to insert one key** both do so. -/
theorem not_unique_of_pending {caller caller' : Caller} {key' val' : CString}
    (hmax : 1 ≤ config.bucketMaxLen) (hne : caller' ≠ caller)
    (hpending : s.pending caller = some (key, val))
    (hpending' : s.pending caller' = some (key', val'))
    (hsame : SameItem charToInt config key key') (hlen : val.bytes.length ≤ valLenMax)
    (hlen' : val'.bytes.length ≤ valLenMax) :
    ∃ s', run (sectionStep charToInt) s [.insert caller, .insert caller'] =
        some (s', [.inserted, .inserted]) ∧ ¬s'.context.Unique := by
  have hfirst := insert_of_pending charToInt hmax hpending hlen
  have hsecond := insert_of_pending charToInt hmax
    (show (HashSystem.mk (s.context.pushItem charToInt key (itemOf charToInt key val))
      (Function.update s.pending caller none)).pending caller' = some (key', val') from
        update_none_eq_some.mpr ⟨hne, hpending'⟩) hlen'
  refine ⟨_, run_cons_eq_some.mpr ⟨_, _, _, hfirst,
    run_cons_eq_some.mpr ⟨_, _, [], hsecond, rfl, rfl⟩, rfl⟩, fun hunique => ?_⟩
  -- the item that is inserted first carries the hash of the second one
  have hchain : Chains.AtMostOne Item.keyHash (HashContext.bucket charToInt _ key') :=
    hunique.bucket hmax key'
  rw [pushItem, bucket_setBucket hmax, if_pos rfl, Chains.atMostOne_cons] at hchain
  have hthere : (s.context.pushItem charToInt key (itemOf charToInt key val)).lookup charToInt key =
      some (itemOf charToInt key val) := lookup_pushItem_self hmax rfl
  rw [lookup_of_sameItem hsame] at hthere
  exact Option.some_ne_none _ (hthere.symm.trans hchain.1)

/-- Two callers that add different keys at a time, and one that deletes. -/
def sectionOps : List (SectionOp (Fin 3)) :=
  [.search 0 key0 hello, .search 1 key1 world, .insert 1, .insert 0, .del 2 key0]

/-- **No duplicates for different keys**, in whatever order they are added. -/
theorem chains_unique_two_keys :
    EachStep (sectionStep signedChar) (KeepsUnique signedChar) (HashSystem.create ⟨16⟩ (Fin 3))
      sectionOps :=
  chains_unique signedChar (by decide) (by decide +kernel)

/-- Two callers look for a new key, and then both insert it. The chain has two items with its hash,
and deleting the key leaves one of them to be found. -/
theorem duplicate_after_two_adds :
    ∃ s s',
      run (sectionStep signedChar) (HashSystem.create ⟨16⟩ (Fin 3))
        [.search 0 key0 hello, .search 1 key0 world, .insert 0, .insert 1] =
          some (s, [.found false, .found false, .inserted, .inserted]) ∧
      ¬s.context.Unique ∧
      sectionStep signedChar s (.del 2 key0) = some (s', .found true) ∧
      s'.context.lookup signedChar key0 = some (itemOf signedChar key0 hello) := by
  refine ⟨_, _, rfl, ?_, rfl, ?_⟩
  · decide +kernel
  · decide +kernel

end HyUtils.Hash
