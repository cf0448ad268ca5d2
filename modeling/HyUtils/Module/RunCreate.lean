import HyUtils.Foundation.Lists
import HyUtils.Foundation.Words
import Mathlib.Logic.Function.Basic
import Mathlib.Data.List.Basic
import Mathlib.Data.Int.Notation

/-!
# Creating a table of modules

`src/include/hy_module.h`: `RUN_CREATE` calls the create functions of a table of modules in order
and, when one returns `NULL`, destroys the entries before it in reverse order. The forward loop
passes over the entries without a create function; the rollback loop does not, so it also destroys
such entries, which this table has not created.

## Main definitions

* `ModuleCreate`, `Call`: an entry of the table, and a call made of one
* `createLoop`, `rollback`, `runCreate`: the two loops of `RUN_CREATE`, and the macro
* `FirstFailure`, `RollsBack`: the create call that fails, and what is to be called then

## Main results

* `createLoop_calls_of_fails`, `createLoop_calls_of_not_fails`: the forward loop
* `rollback_calls`: the rollback loop
* `runCreate_rollsBack_iff`: exactly when `RUN_CREATE` rolls back what it has created
-/

namespace HyUtils.Module

/-- `module_create_t`; functions, handle variables and configurations are known by their
addresses. -/
structure ModuleCreate where
  name : List UInt8
  handle : ℕ
  config : ℕ
  create : Option ℕ
  destroy : Option ℕ

/-- A call of a function of the `i`-th entry, with its argument. -/
inductive Call
  | create (i fn config : ℕ)
  | destroy (i fn handle : ℕ)
  deriving DecidableEq

/-- The handle variables, and the calls made so far. -/
structure World where
  handles : ℕ → ℕ
  calls : List Call

/-- `HyUtilsArrayCnt`. -/
def hyUtilsArrayCnt (module : List ModuleCreate) : Int32 := Int32.ofNat module.length

/-- The forward loop, from index `i` on: the index it stops at. The `i`-th call returns the pointer
`answers i`. -/
def createLoop (answers : ℕ → ℕ) : List ModuleCreate → ℕ → World → ℕ × World
  | [], i, w => (i, w)
  | entry :: rest, i, w =>
    match entry.create with
    | none => createLoop answers rest (i + 1) w
    | some fn =>
      let w : World :=
        { handles := Function.update w.handles entry.handle (answers i)
          calls := w.calls ++ [.create i fn entry.config] }
      if w.handles entry.handle = 0 then (i, w) else createLoop answers rest (i + 1) w

/-- The call that destroys the `j`-th entry. -/
def destroyCall (module : List ModuleCreate) (j : ℕ) : Option Call :=
  module[j]?.bind fun entry => entry.destroy.map fun fn => .destroy j fn entry.handle

/-- The rollback loop, from index `i - 1` down to 0. -/
def rollback (module : List ModuleCreate) : ℕ → World → World
  | 0, w => w
  | j + 1, w => rollback module j { w with calls := w.calls ++ (destroyCall module j).toList }

/-- The entries the loops reach: `len` is an `int32_t`. -/
def reached (module : List ModuleCreate) : List ModuleCreate :=
  module.take (hyUtilsArrayCnt module).toInt.toNat

/-- `RUN_CREATE`: whether control passes the macro, and the calls made. -/
def runCreate (module : List ModuleCreate) (answers : ℕ → ℕ) (handles : ℕ → ℕ) : Bool × World :=
  let (i, w) := createLoop answers (reached module) 0 { handles, calls := [] }
  if (i : ℤ) < (hyUtilsArrayCnt module).toInt then (false, rollback module i w) else (true, w)

/-! ## The forward loop -/

/-- The create call of the `i`-th entry is made and returns `NULL`. -/
def Fails (answers : ℕ → ℕ) (i : ℕ) (entry : ModuleCreate) : Prop :=
  entry.create.isSome ∧ answers i = 0

/-- The create calls of entries from index `i` on. -/
def createCalls : List ModuleCreate → ℕ → List Call
  | [], _ => []
  | entry :: rest, i =>
    (entry.create.map fun fn => Call.create i fn entry.config).toList ++ createCalls rest (i + 1)

/-- **The forward loop without a failure** makes every create call. -/
theorem createLoop_calls_of_not_fails {answers : ℕ → ℕ} : ∀ {entries : List ModuleCreate} {i : ℕ},
    (∀ k entry, entries[k]? = some entry → ¬Fails answers (i + k) entry) → ∀ w,
      (createLoop answers entries i w).1 = i + entries.length ∧
        (createLoop answers entries i w).2.calls = w.calls ++ createCalls entries i := by
  intro entries
  induction entries with
  | nil => exact fun _ w => ⟨rfl, (List.append_nil _).symm⟩
  | cons entry rest ih =>
    intro i h w
    -- the indices of the rest are those of the whole list, shifted
    have hhead : ¬Fails answers i entry := h 0 entry rfl
    have hrest := @ih (i + 1) fun k e hk => by
      rw [Nat.add_assoc, Nat.add_comm 1]
      exact h (k + 1) e hk
    cases hc : entry.create with
    | none =>
      simp only [createLoop, createCalls, hc, Option.map_none, Option.toList_none,
        List.nil_append, List.length_cons, hrest w, and_true]
      omega
    | some fn =>
      have hanswer : answers i ≠ 0 := fun h0 => hhead ⟨by simp [hc], h0⟩
      simp only [createLoop, createCalls, hc, Function.update_self, if_neg hanswer,
        Option.map_some, Option.toList_some, List.length_cons, hrest, List.append_assoc, and_true]
      omega

/-- **The forward loop with a failure** stops at the first one. -/
theorem createLoop_calls_of_fails {answers : ℕ → ℕ} :
    ∀ {entries : List ModuleCreate} {i n : ℕ} {entry : ModuleCreate},
      entries[n]? = some entry → Fails answers (i + n) entry →
      (∀ k < n, ∀ e, entries[k]? = some e → ¬Fails answers (i + k) e) → ∀ w,
        (createLoop answers entries i w).1 = i + n ∧
          (createLoop answers entries i w).2.calls =
            w.calls ++ createCalls (entries.take (n + 1)) i := by
  intro entries
  induction entries with
  | nil => exact fun h => nomatch h
  | cons first rest ih =>
    intro i n entry hn hfails hbefore w
    cases n with
    | zero =>
      -- the failing call is made, and no other one after it
      obtain rfl : first = entry := by simpa using hn
      obtain ⟨hcreate, hanswer⟩ := hfails
      obtain ⟨fn, hfn⟩ := Option.isSome_iff_exists.mp hcreate
      rw [Nat.add_zero] at hanswer
      simp [createLoop, createCalls, hfn, hanswer]
    | succ n =>
      have hhead : ¬Fails answers i first := hbefore 0 n.succ_pos first rfl
      have hshift : ∀ k, i + 1 + k = i + (k + 1) := fun k => by omega
      have hrest := @ih (i + 1) n entry hn (hshift n ▸ hfails) fun k hk e he => by
        rw [hshift k]
        exact hbefore (k + 1) (by omega) e he
      cases hc : first.create with
      | none =>
        simp [createLoop, createCalls, hc, hrest, hshift]
      | some fn =>
        have hanswer : answers i ≠ 0 := fun h0 => hhead ⟨by simp [hc], h0⟩
        simp [createLoop, createCalls, hc, hanswer, hrest, hshift]

/-! ## The rollback loop -/

/-- **The rollback loop** destroys every entry below its index that has a destroy function. -/
theorem rollback_calls (module : List ModuleCreate) (i : ℕ) (w : World) :
    (rollback module i w).calls =
      w.calls ++ (List.range i).reverse.filterMap (destroyCall module) := by
  induction i generalizing w with
  | zero => simp [rollback]
  | succ i ih =>
    rw [rollback, ih, List.range_succ, List.reverse_append, List.reverse_singleton,
      List.singleton_append, List.filterMap_cons]
    cases destroyCall module i <;> simp

/-! ## Rolling back -/

/-- The create call of the `i`-th entry is the first to fail. -/
def FirstFailure (answers : ℕ → ℕ) (entries : List ModuleCreate) (i : ℕ) : Prop :=
  (∃ entry, entries[i]? = some entry ∧ Fails answers i entry) ∧
    ∀ k < i, ∀ entry, entries[k]? = some entry → ¬Fails answers k entry

theorem FirstFailure.unique {answers : ℕ → ℕ} {entries : List ModuleCreate} {i j : ℕ}
    (hi : FirstFailure answers entries i) (hj : FirstFailure answers entries j) : i = j := by
  obtain ⟨⟨e, he, hfe⟩, hbefore⟩ := hi
  obtain ⟨⟨e', he', hfe'⟩, hbefore'⟩ := hj
  rcases Nat.lt_trichotomy i j with h | h | h
  · exact absurd hfe (hbefore' i h e he)
  · exact h
  · exact absurd hfe' (hbefore j h e' he')

/-- The call due for the `j`-th entry when a later one fails: its destroy function, if it was
created. -/
def dueCall (module : List ModuleCreate) (j : ℕ) : Option Call :=
  if (module[j]?.bind ModuleCreate.create).isSome then destroyCall module j else none

/-- What is to be called: every create function up to the first that fails, and then the destroy
function of each entry created before it, in reverse order; without a failure, the create functions
alone. -/
structure RollsBack (module : List ModuleCreate) (answers : ℕ → ℕ) (passes : Bool)
    (calls : List Call) : Prop where
  failed : ∀ i, FirstFailure answers (reached module) i → passes = false ∧
    calls = createCalls ((reached module).take (i + 1)) 0 ++
      (List.range i).reverse.filterMap (dueCall module)
  completed : (∀ i, ¬FirstFailure answers (reached module) i) →
    passes = true ∧ calls = createCalls (reached module) 0

theorem length_reached (module : List ModuleCreate) :
    (reached module).length = (hyUtilsArrayCnt module).toInt.toNat := by
  have hle : (hyUtilsArrayCnt module).toInt ≤ module.length := Words.toInt_ofNat_le _
  rw [reached, List.length_take]
  omega

/-- What `RUN_CREATE` calls when a create call fails. -/
theorem runCreate_of_firstFailure {module : List ModuleCreate} {answers : ℕ → ℕ} {i : ℕ}
    (h : FirstFailure answers (reached module) i) (handles : ℕ → ℕ) :
    (runCreate module answers handles).1 = false ∧
      (runCreate module answers handles).2.calls = createCalls ((reached module).take (i + 1)) 0 ++
        (List.range i).reverse.filterMap (destroyCall module) := by
  obtain ⟨⟨entry, hentry, hfails⟩, hbefore⟩ := h
  rw [← Nat.zero_add i] at hfails
  obtain ⟨hindex, hcalls⟩ := createLoop_calls_of_fails hentry hfails
    (fun k hk e he => (Nat.zero_add k).symm ▸ hbefore k hk e he) { handles, calls := [] }
  -- the index is below the count, which is how the rollback is entered
  have hlt : i < (reached module).length := (List.getElem?_eq_some_iff.mp hentry).1
  rw [length_reached] at hlt
  rw [Nat.zero_add] at hindex
  rw [runCreate]
  simp only [hindex]
  rw [if_pos (by omega), rollback_calls, hcalls]
  exact ⟨rfl, rfl⟩

/-- What `RUN_CREATE` calls when no create call fails. -/
theorem runCreate_of_not_firstFailure {module : List ModuleCreate} {answers : ℕ → ℕ}
    (h : ∀ i, ¬FirstFailure answers (reached module) i) (handles : ℕ → ℕ) :
    (runCreate module answers handles).1 = true ∧
      (runCreate module answers handles).2.calls = createCalls (reached module) 0 := by
  -- without a first failure there is none
  have hnone : ∀ k entry, (reached module)[k]? = some entry → ¬Fails answers (0 + k) entry := by
    intro k
    rw [Nat.zero_add]
    induction k using Nat.strong_induction_on with
    | _ k ih => exact fun entry hk hfails => h k ⟨⟨entry, hk, hfails⟩, ih⟩
  obtain ⟨hindex, hcalls⟩ := createLoop_calls_of_not_fails hnone { handles, calls := [] }
  rw [length_reached, Nat.zero_add] at hindex
  rw [runCreate]
  simp only [hindex]
  rw [if_neg (by omega), hcalls]
  exact ⟨rfl, rfl⟩

/-- The two rollbacks agree exactly when every entry with a destroy function was created. -/
theorem filterMap_destroyCall_eq_iff {module : List ModuleCreate} {i : ℕ} :
    (List.range i).reverse.filterMap (destroyCall module) =
        (List.range i).reverse.filterMap (dueCall module) ↔
      ∀ j < i, ∀ entry, module[j]? = some entry → entry.create = none → entry.destroy = none := by
  rw [Lists.filterMap_eq_filterMap_iff]
  · simp only [List.mem_reverse, List.mem_range]
    refine forall₂_congr fun j _ => ?_
    rw [destroyCall, dueCall, destroyCall]
    cases hentry : module[j]? with
    | none => simp
    | some entry => cases hcreate : entry.create <;> simp [hcreate]
  · intro j _
    rw [dueCall]
    split_ifs
    · exact .inr rfl
    · exact .inl rfl

/-- **`RUN_CREATE` rolls back what it has created** exactly when no entry before the first that
fails has a destroy function and no create function. -/
theorem runCreate_rollsBack_iff (module : List ModuleCreate) (answers handles : ℕ → ℕ) :
    RollsBack module answers (runCreate module answers handles).1
        (runCreate module answers handles).2.calls ↔
      ∀ i, FirstFailure answers (reached module) i →
        ∀ j < i, ∀ entry, module[j]? = some entry → entry.create = none → entry.destroy = none := by
  by_cases hfails : ∃ i, FirstFailure answers (reached module) i
  · obtain ⟨i, hi⟩ := hfails
    obtain ⟨hpasses, hcalls⟩ := runCreate_of_firstFailure hi handles
    rw [hpasses, hcalls]
    constructor
    · intro h i' hi'
      obtain rfl := hi.unique hi'
      exact filterMap_destroyCall_eq_iff.mp (List.append_cancel_left (h.failed i hi).2)
    · intro h
      refine ⟨fun i' hi' => ⟨rfl, ?_⟩, fun hnone => absurd hi (hnone i)⟩
      obtain rfl := hi.unique hi'
      rw [filterMap_destroyCall_eq_iff.mpr (h i hi)]
  · have hnone : ∀ i, ¬FirstFailure answers (reached module) i := fun i hi => hfails ⟨i, hi⟩
    exact iff_of_true ⟨fun i hi => absurd hi (hnone i),
        fun _ => runCreate_of_not_firstFailure hnone handles⟩
      fun i hi => absurd hi (hnone i)

/-- The first entry has no create function; when the second fails, it is destroyed all the same. -/
theorem runCreate_destroys_uncreated :
    let module : List ModuleCreate :=
      [{ name := [], handle := 1, config := 0, create := none, destroy := some 10 },
        { name := [], handle := 2, config := 0, create := some 11, destroy := some 12 }]
    (runCreate module (fun _ => 0) fun _ => 0).2.calls = [.create 1 11 0, .destroy 0 10 1] ∧
      ¬RollsBack module (fun _ => 0) (runCreate module (fun _ => 0) fun _ => 0).1
        (runCreate module (fun _ => 0) fun _ => 0).2.calls := by
  intro module
  have hfirst : FirstFailure (fun _ => 0) (reached module) 1 := by
    refine ⟨⟨⟨[], 2, 0, some 11, some 12⟩, rfl, rfl, rfl⟩, fun k hk e he => ?_⟩
    obtain rfl : k = 0 := by omega
    obtain rfl := Option.some.inj he
    exact fun h => absurd h.1 (by decide)
  exact ⟨rfl, fun h => absurd (h.failed 1 hfirst).2 (by decide)⟩

end HyUtils.Module
