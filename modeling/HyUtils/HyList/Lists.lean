import HyUtils.HyList.Model
import Mathlib.Data.Fintype.Basic
import Mathlib.Data.List.Perm.Basic

/-!
# What the lists are for

The memory as its user sees it: which addresses have a node, and for each head of a list the
entries of that list. A node may be neither a head nor an entry.

## Main definitions

* `ListTable α`: the nodes and the lists
* `putNext`, `putPrev`: entries put in behind, or before, a head or an entry
* `ListTable.Loose`, `ListTable.OnList`, `ListTable.Removable`, `ListTable.NoEntry`: the nodes a
  caller may put in, put something next to, take out, or make a head
* `listsStep`: the functions on lists, as a component
* `Allowed`: the calls the functions are made for
-/

namespace HyUtils.HyList

variable {α : Type} [DecidableEq α]

/-- The addresses with a node, and the entries of each list by its head. -/
@[ext] structure ListTable (α : Type) where
  live : α → Bool
  entries : α → Option (List α)

/-! ## Places on a list -/

/-- A list with `zs` in the place of `p`. -/
def spread (p : α) (zs xs : List α) : List α := xs.flatMap fun x => if x = p then zs else [x]

/-- The entries of the list of `h` once `ys` is put in behind `p`. -/
def putNext (ys : List α) (p h : α) (xs : List α) : List α :=
  if h = p then ys ++ xs else spread p (p :: ys) xs

/-- The entries of the list of `h` once `ys` is put in before `p`. Before the head is at the end. -/
def putPrev (ys : List α) (p h : α) (xs : List α) : List α :=
  if h = p then xs ++ ys else spread p (ys ++ [p]) xs

section Put

variable {p h : α} {xs ys zs pre post : List α}

theorem spread_of_notMem (zs : List α) (hp : p ∉ xs) : spread p zs xs = xs := by
  induction xs with
  | nil => rfl
  | cons x xs ih =>
    rw [List.mem_cons, not_or] at hp
    rw [spread, List.flatMap_cons, if_neg (Ne.symm hp.1)]
    exact congrArg (x :: ·) (ih hp.2)

theorem spread_append_cons (zs : List α) (h : (pre ++ p :: post).Nodup) :
    spread p zs (pre ++ p :: post) = pre ++ zs ++ post := by
  obtain ⟨-, hpost, hdisjoint⟩ := List.nodup_append'.mp h
  have hpre : spread p zs pre = pre := spread_of_notMem zs fun hmem =>
    hdisjoint hmem List.mem_cons_self
  have hpost : spread p zs post = post := spread_of_notMem zs (List.nodup_cons.mp hpost).1
  rw [spread] at hpre hpost ⊢
  rw [List.flatMap_append, List.flatMap_cons, if_pos rfl, hpre, hpost, List.append_assoc]

theorem mem_spread {a : α} : a ∈ spread p zs xs ↔ a ∈ xs ∧ a ≠ p ∨ p ∈ xs ∧ a ∈ zs := by
  simp only [spread, List.mem_flatMap]
  constructor
  · rintro ⟨x, hx, ha⟩
    split_ifs at ha with hxp
    · exact .inr ⟨hxp ▸ hx, ha⟩
    · obtain rfl := List.mem_singleton.mp ha
      exact .inl ⟨hx, hxp⟩
  · rintro (⟨ha, hne⟩ | ⟨hp, ha⟩)
    · exact ⟨a, ha, by simp [hne]⟩
    · exact ⟨p, hp, by simpa using ha⟩

theorem mem_of_mem_putNext {a : α} (h' : a ∈ putNext ys p h xs) : a ∈ xs ∨ a ∈ ys := by
  rw [putNext] at h'
  split_ifs at h'
  · exact (List.mem_append.mp h').symm
  · rcases mem_spread.mp h' with ⟨ha, -⟩ | ⟨hp, ha⟩
    · exact .inl ha
    · rcases List.mem_cons.mp ha with rfl | ha
      · exact .inl hp
      · exact .inr ha

theorem mem_of_mem_putPrev {a : α} (h' : a ∈ putPrev ys p h xs) : a ∈ xs ∨ a ∈ ys := by
  rw [putPrev] at h'
  split_ifs at h'
  · exact List.mem_append.mp h'
  · rcases mem_spread.mp h' with ⟨ha, -⟩ | ⟨hp, ha⟩
    · exact .inl ha
    · rcases List.mem_append.mp ha with ha | ha
      · exact .inr ha
      · exact .inl (List.mem_singleton.mp ha ▸ hp)

theorem spread_self (p : α) (xs : List α) : spread p [p] xs = xs := by
  induction xs with
  | nil => rfl
  | cons x xs ih =>
    rw [spread] at ih ⊢
    rw [List.flatMap_cons, ih]
    split_ifs with hxp
    · rw [hxp, List.singleton_append]
    · rfl

theorem putNext_nil (p h : α) : putNext [] p h = id := by
  funext xs
  rw [putNext, spread_self, List.nil_append, ite_self, id]

theorem putPrev_nil (p h : α) : putPrev [] p h = id := by
  funext xs
  rw [putPrev, List.nil_append, spread_self, List.append_nil, ite_self, id]

theorem putNext_of_notMem (ys : List α) (hp : p ∉ h :: xs) : putNext ys p h xs = xs := by
  rw [List.mem_cons, not_or] at hp
  rw [putNext, if_neg (Ne.symm hp.1), spread_of_notMem _ hp.2]

theorem putPrev_of_notMem (ys : List α) (hp : p ∉ h :: xs) : putPrev ys p h xs = xs := by
  rw [List.mem_cons, not_or] at hp
  rw [putPrev, if_neg (Ne.symm hp.1), spread_of_notMem _ hp.2]

/-- The head and the entries once `ys` is put in behind `p`. -/
theorem cons_putNext (ys : List α) (hxs : h :: xs = pre ++ p :: post) (hnodup : (h :: xs).Nodup) :
    h :: putNext ys p h xs = pre ++ p :: (ys ++ post) := by
  cases pre with
  | nil =>
    obtain ⟨rfl, rfl⟩ : h = p ∧ xs = post := by simpa using hxs
    rw [putNext, if_pos rfl, List.nil_append]
  | cons a pre =>
    obtain ⟨rfl, rfl⟩ : h = a ∧ xs = pre ++ p :: post := by simpa using hxs
    have hne : h ≠ p := fun heq => (List.nodup_cons.mp hnodup).1 (by simp [heq])
    rw [putNext, if_neg hne, spread_append_cons _ (List.nodup_cons.mp hnodup).2]
    simp

/-- The head and the entries once `ys` is put in before `p`, up to where they are read from. -/
theorem cons_putPrev (ys : List α) (hxs : h :: xs = pre ++ p :: post) (hnodup : (h :: xs).Nodup) :
    ∃ l l', h :: putPrev ys p h xs = l ++ l' ∧ p :: (post ++ pre) ++ ys = l' ++ l := by
  cases pre with
  | nil =>
    obtain ⟨rfl, rfl⟩ : h = p ∧ xs = post := by simpa using hxs
    exact ⟨[], h :: (xs ++ ys), by rw [putPrev, if_pos rfl]; rfl, by simp⟩
  | cons a pre =>
    obtain ⟨rfl, rfl⟩ : h = a ∧ xs = pre ++ p :: post := by simpa using hxs
    have hne : h ≠ p := fun heq => (List.nodup_cons.mp hnodup).1 (by simp [heq])
    refine ⟨h :: pre ++ ys, p :: post, ?_, by simp⟩
    rw [putPrev, if_neg hne, spread_append_cons _ (List.nodup_cons.mp hnodup).2]
    simp

end Put

/-! ## Calls on lists -/

namespace ListTable

/-- A node that may be put in: it is no entry, and not the head of a list with entries. -/
def Loose (A : ListTable α) (a : α) : Prop :=
  A.live a = true ∧ (∀ h xs, A.entries h = some xs → a ∉ xs) ∧ (A.entries a).getD [] = []

/-- A head or an entry. -/
def OnList (A : ListTable α) (a : α) : Prop := ∃ h xs, A.entries h = some xs ∧ a ∈ h :: xs

/-- A node that may be taken out: an entry, or a head without entries. -/
def Removable (A : ListTable α) (a : α) : Prop :=
  (∃ h xs, A.entries h = some xs ∧ a ∈ xs) ∨ A.entries a = some []

/-- A node that may be made the head of an empty list. -/
def NoEntry (A : ListTable α) (a : α) : Prop :=
  A.live a = true ∧ ∀ h xs, A.entries h = some xs → a ∉ xs

/-- A node with new memory. -/
def alloc (A : ListTable α) (a : α) : ListTable α :=
  { A with live := Function.update A.live a true }

/-- A node whose memory is given back. -/
def free (A : ListTable α) (a : α) : ListTable α where
  live := Function.update A.live a false
  entries := Function.update A.entries a none

/-- `INIT_LIST_HEAD`. -/
def init (A : ListTable α) (list : α) : ListTable α :=
  { A with entries := Function.update A.entries list (some []) }

/-- `list_add`. -/
def add (A : ListTable α) (new head : α) : ListTable α :=
  { A with entries := fun h =>
      if h = new then none else (A.entries h).map (putNext [new] head h) }

/-- `list_add_tail`. -/
def addTail (A : ListTable α) (new head : α) : ListTable α :=
  { A with entries := fun h =>
      if h = new then none else (A.entries h).map (putPrev [new] head h) }

/-- `list_del`: the node is then neither a head nor an entry. -/
def del (A : ListTable α) (entry : α) : ListTable α :=
  { A with entries := fun h =>
      if h = entry then none else (A.entries h).map fun xs => xs.erase entry }

/-- `list_replace`; a head is replaced with its list. -/
def replace (A : ListTable α) (old new : α) : ListTable α :=
  { A with entries := fun h =>
      if h = old then none
      else if h = new then A.entries old
      else (A.entries h).map (spread old [new]) }

/-- What is left at a head whose entries are taken: only when there are none is it still one. -/
def leftBehind (ys : List α) : Option (List α) := if ys = [] then some [] else none

/-- `list_splice`. -/
def splice (A : ListTable α) (list head : α) : ListTable α :=
  let ys := (A.entries list).getD []
  { A with entries := fun h =>
      if h = list then leftBehind ys else (A.entries h).map (putNext ys head h) }

/-- `list_splice_tail`. -/
def spliceTail (A : ListTable α) (list head : α) : ListTable α :=
  let ys := (A.entries list).getD []
  { A with entries := fun h =>
      if h = list then leftBehind ys else (A.entries h).map (putPrev ys head h) }

/-- `list_rotate_left`. -/
def rotateLeft (A : ListTable α) (head : α) : ListTable α :=
  let turned := (A.entries head).map fun xs => xs.tail ++ xs.take 1
  { A with entries := Function.update A.entries head turned }

/-- `list_cut_position`; a list with one entry is not cut at a node that is not on it. -/
def cutPosition (A : ListTable α) (list head entry : α) : ListTable α :=
  let xs := (A.entries head).getD []
  if xs = [] ∨ xs.length = 1 ∧ entry ∉ head :: xs then A
  else if entry = head then A.init list
  else
    let entries := Function.update A.entries list (some (xs.takeWhile (· ≠ entry) ++ [entry]))
    { A with entries := Function.update entries head (some (xs.dropWhile (· ≠ entry)).tail) }

/-- The entries of a list. -/
def entriesOf (A : ListTable α) (head : α) : List α := (A.entries head).getD []

end ListTable

/-- The lists after a call, and what it shows. -/
def listsCall (A : ListTable α) : ListOp α → ListTable α × ListOut α
  | .alloc a _ _ => (A.alloc a, .done)
  | .free a => (A.free a, .done)
  | .init list => (A.init list, .done)
  | .add new head => (A.add new head, .done)
  | .addTail new head => (A.addTail new head, .done)
  | .del entry => (A.del entry, .done)
  | .delInit entry => ((A.del entry).init entry, .done)
  | .replace old new => (A.replace old new, .done)
  | .replaceInit old new => ((A.replace old new).init old, .done)
  | .move list head => ((A.del list).add list head, .done)
  | .moveTail list head => ((A.del list).addTail list head, .done)
  | .rotateLeft head => (A.rotateLeft head, .done)
  | .cutPosition list head entry => (A.cutPosition list head entry, .done)
  | .splice list head => (A.splice list head, .done)
  | .spliceTail list head => (A.spliceTail list head, .done)
  | .spliceInit list head => ((A.splice list head).init list, .done)
  | .spliceTailInit list head => ((A.spliceTail list head).init list, .done)
  | .isLast list head => (A, .answer ((head :: A.entriesOf head).getLast? = some list))
  | .empty head => (A, .answer (A.entriesOf head).isEmpty)
  | .emptyCareful head => (A, .answer (A.entriesOf head).isEmpty)
  | .isSingular head => (A, .answer ((A.entriesOf head).length = 1))
  | .forEach _ head => (A, .visited (A.entriesOf head))
  | .forEachPrev _ head => (A, .visited (A.entriesOf head).reverse)

/-- One step over the lists. -/
def listsStep (A : ListTable α) (op : ListOp α) : Option (ListTable α × ListOut α) :=
  some (listsCall A op)

/-- The calls the functions are made for: memory is given out when it is not in use and given back
when no list has it, what is put in is on no list, the place of a call is on a list, and a loop has
rounds enough. -/
def Allowed (A : ListTable α) : ListOp α → Prop
  | .alloc a _ _ => A.live a = false
  | .free a => A.Loose a
  | .init list => A.NoEntry list
  | .add new head | .addTail new head => A.Loose new ∧ A.OnList head ∧ head ≠ new
  | .del entry | .delInit entry => A.Removable entry
  | .replace old new | .replaceInit old new => A.Loose new ∧ A.OnList old ∧ old ≠ new
  | .move list head | .moveTail list head => A.Removable list ∧ A.OnList head ∧ head ≠ list
  | .rotateLeft head | .empty head | .emptyCareful head | .isSingular head =>
    (A.entries head).isSome
  | .cutPosition list head entry =>
    (A.entries head).isSome ∧ A.NoEntry list ∧ list ≠ head ∧
      (entry ∈ head :: A.entriesOf head ∨ (A.entriesOf head).length ≤ 1)
  | .splice list head | .spliceTail list head | .spliceInit list head
  | .spliceTailInit list head =>
    (A.entries list).isSome ∧ A.OnList head ∧ head ∉ list :: A.entriesOf list
  | .isLast list head => (A.entries head).isSome ∧ list ∈ head :: A.entriesOf head
  | .forEach fuel head | .forEachPrev fuel head =>
    (A.entries head).isSome ∧ (A.entriesOf head).length ≤ fuel

/-- A memory without nodes. -/
def ListTable.empty (α : Type) : ListTable α where
  live := fun _ => false
  entries := fun _ => none

/-! ## Calls can be tested -/

section Decidable

variable [Fintype α] (A : ListTable α) (a : α)

instance : Decidable (A.OnList a) :=
  inferInstanceAs (Decidable (∃ h, ∃ xs ∈ A.entries h, a ∈ h :: xs))

instance : Decidable (A.Removable a) :=
  inferInstanceAs (Decidable ((∃ h, ∃ xs ∈ A.entries h, a ∈ xs) ∨ A.entries a = some []))

instance : Decidable (A.NoEntry a) :=
  inferInstanceAs (Decidable (A.live a = true ∧ ∀ h, ∀ xs ∈ A.entries h, a ∉ xs))

instance : Decidable (A.Loose a) :=
  inferInstanceAs (Decidable
    (A.live a = true ∧ (∀ h, ∀ xs ∈ A.entries h, a ∉ xs) ∧ (A.entries a).getD [] = []))

instance Allowed.decidable : ∀ op, Decidable (Allowed A op)
  | .alloc a _ _ => inferInstanceAs (Decidable (A.live a = false))
  | .free a => inferInstanceAs (Decidable (A.Loose a))
  | .init list => inferInstanceAs (Decidable (A.NoEntry list))
  | .add new head | .addTail new head =>
    inferInstanceAs (Decidable (A.Loose new ∧ A.OnList head ∧ head ≠ new))
  | .del entry | .delInit entry => inferInstanceAs (Decidable (A.Removable entry))
  | .replace old new | .replaceInit old new =>
    inferInstanceAs (Decidable (A.Loose new ∧ A.OnList old ∧ old ≠ new))
  | .move list head | .moveTail list head =>
    inferInstanceAs (Decidable (A.Removable list ∧ A.OnList head ∧ head ≠ list))
  | .rotateLeft head | .empty head | .emptyCareful head | .isSingular head =>
    inferInstanceAs (Decidable ((A.entries head).isSome))
  | .cutPosition list head entry =>
    inferInstanceAs (Decidable ((A.entries head).isSome ∧ A.NoEntry list ∧ list ≠ head ∧
      (entry ∈ head :: A.entriesOf head ∨ (A.entriesOf head).length ≤ 1)))
  | .splice list head | .spliceTail list head | .spliceInit list head
  | .spliceTailInit list head =>
    inferInstanceAs (Decidable
      ((A.entries list).isSome ∧ A.OnList head ∧ head ∉ list :: A.entriesOf list))
  | .isLast list head =>
    inferInstanceAs (Decidable ((A.entries head).isSome ∧ list ∈ head :: A.entriesOf head))
  | .forEach fuel head | .forEachPrev fuel head =>
    inferInstanceAs (Decidable ((A.entries head).isSome ∧ (A.entriesOf head).length ≤ fuel))

end Decidable

end HyUtils.HyList
