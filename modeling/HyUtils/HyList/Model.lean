import HyUtils.Foundation.Rings

/-!
# Linked lists

`include/hy_list.h`: circular lists of nodes that are embedded in other structures, with a node as
the head of each list. A node is at an address, and an access to an address without a node is a
missing result. The address of the structure around a node and that of the node determine each
other, so the loops over entries are those over nodes.

## Main definitions

* `initListHead`, `listAdd`, `listAddTail`, `listDel`, `listDelInit`, `listReplace`,
  `listReplaceInit`, `listMove`, `listMoveTail`, `listRotateLeft`, `listCutPosition`, `listSplice`,
  `listSpliceTail`, `listSpliceInit`, `listSpliceTailInit`: the functions that write
* `listIsLast`, `listEmpty`, `listEmptyCareful`, `listIsSingular`: those that read
* `listForEach`, `listForEachPrev`, `listForEachSafe`: the loops, with a bound on their rounds
* `ListOp`, `ringStep`: the functions as a component over one memory
-/

namespace HyUtils.HyList

open Rings

variable {α : Type} [DecidableEq α]

/-! ## Writes -/

/-- `INIT_LIST_HEAD`. -/
def initListHead (m : Cells α) (list : α) : Option (Cells α) := do
  let m ← setNext m list list
  setPrev m list list

/-- `__list_add`. -/
def listAddBetween (m : Cells α) (new prev next : α) : Option (Cells α) := do
  let m ← setPrev m next new
  let m ← setNext m new next
  let m ← setPrev m new prev
  setNext m prev new

/-- `list_add`. -/
def listAdd (m : Cells α) (new head : α) : Option (Cells α) := do
  listAddBetween m new head (← m.next head)

/-- `list_add_tail`. -/
def listAddTail (m : Cells α) (new head : α) : Option (Cells α) := do
  listAddBetween m new (← m.prev head) head

/-- `__list_del`. -/
def listDelBetween (m : Cells α) (prev next : α) : Option (Cells α) := do
  let m ← setPrev m next prev
  setNext m prev next

/-- `__list_del_entry`. -/
def listDelEntry (m : Cells α) (entry : α) : Option (Cells α) := do
  listDelBetween m (← m.prev entry) (← m.next entry)

/-- `LIST_POISON1` and `LIST_POISON2`. -/
structure ListPoison (α : Type) where
  poison1 : α
  poison2 : α

/-- `list_del`. -/
def listDel (poison : ListPoison α) (m : Cells α) (entry : α) : Option (Cells α) := do
  let m ← listDelEntry m entry
  let m ← setNext m entry poison.poison1
  setPrev m entry poison.poison2

/-- `list_replace`; each pointer is read back from where it has just been written. -/
def listReplace (m : Cells α) (old new : α) : Option (Cells α) := do
  let m ← setNext m new (← m.next old)
  let m ← setPrev m (← m.next new) new
  let m ← setPrev m new (← m.prev old)
  setNext m (← m.prev new) new

/-- `list_replace_init`. -/
def listReplaceInit (m : Cells α) (old new : α) : Option (Cells α) := do
  let m ← listReplace m old new
  initListHead m old

/-- `list_del_init`. -/
def listDelInit (m : Cells α) (entry : α) : Option (Cells α) := do
  let m ← listDelEntry m entry
  initListHead m entry

/-- `list_move`. -/
def listMove (m : Cells α) (list head : α) : Option (Cells α) := do
  let m ← listDelEntry m list
  listAdd m list head

/-- `list_move_tail`. -/
def listMoveTail (m : Cells α) (list head : α) : Option (Cells α) := do
  let m ← listDelEntry m list
  listAddTail m list head

/-! ## Reads -/

/-- `list_is_last`. -/
def listIsLast (m : Cells α) (list head : α) : Option Bool := do
  return (← m.next list) = head

/-- `list_empty`. -/
def listEmpty (m : Cells α) (head : α) : Option Bool := do
  return (← m.next head) = head

/-- `list_empty_careful`. -/
def listEmptyCareful (m : Cells α) (head : α) : Option Bool := do
  let next ← m.next head
  return next = head && next = (← m.prev head)

/-- `list_is_singular`. -/
def listIsSingular (m : Cells α) (head : α) : Option Bool := do
  return !(← listEmpty m head) && (← m.next head) = (← m.prev head)

/-! ## Whole lists -/

/-- `list_rotate_left`. -/
def listRotateLeft (m : Cells α) (head : α) : Option (Cells α) := do
  if ← listEmpty m head then return m
  else listMoveTail m (← m.next head) head

/-- `__list_cut_position`. -/
def listCutBetween (m : Cells α) (list head entry : α) : Option (Cells α) := do
  let newFirst ← m.next entry
  let m ← setNext m list (← m.next head)
  let m ← setPrev m (← m.next list) list
  let m ← setPrev m list entry
  let m ← setNext m entry list
  let m ← setNext m head newFirst
  setPrev m newFirst head

/-- `list_cut_position`. -/
def listCutPosition (m : Cells α) (list head entry : α) : Option (Cells α) := do
  if ← listEmpty m head then return m
  else if (← listIsSingular m head) && (← m.next head) ≠ entry && head ≠ entry then return m
  else if entry = head then initListHead m list
  else listCutBetween m list head entry

/-- `__list_splice`. -/
def listSpliceBetween (m : Cells α) (list prev next : α) : Option (Cells α) := do
  let first ← m.next list
  let last ← m.prev list
  let m ← setPrev m first prev
  let m ← setNext m prev first
  let m ← setNext m last next
  setPrev m next last

/-- `list_splice`. -/
def listSplice (m : Cells α) (list head : α) : Option (Cells α) := do
  if ← listEmpty m list then return m
  else listSpliceBetween m list head (← m.next head)

/-- `list_splice_tail`. -/
def listSpliceTail (m : Cells α) (list head : α) : Option (Cells α) := do
  if ← listEmpty m list then return m
  else listSpliceBetween m list (← m.prev head) head

/-- `list_splice_init`. -/
def listSpliceInit (m : Cells α) (list head : α) : Option (Cells α) := do
  if ← listEmpty m list then return m
  else
    let m ← listSpliceBetween m list head (← m.next head)
    initListHead m list

/-- `list_splice_tail_init`. -/
def listSpliceTailInit (m : Cells α) (list head : α) : Option (Cells α) := do
  if ← listEmpty m list then return m
  else
    let m ← listSpliceBetween m list (← m.prev head) head
    initListHead m list

/-! ## Loops -/

/-- `list_for_each` and `list_for_each_prev` from `pos` on, over the cells that `step` reads. -/
def forEachFrom (step : α → Option α) (head : α) : ℕ → α → Option (List α)
  | 0, pos => if pos = head then some [] else none
  | fuel + 1, pos =>
    if pos = head then some []
    else do
      let rest ← forEachFrom step head fuel (← step pos)
      return pos :: rest

/-- `list_for_each` in at most `fuel` rounds, with the nodes it visits. -/
def listForEach (fuel : ℕ) (m : Cells α) (head : α) : Option (List α) := do
  forEachFrom m.next head fuel (← m.next head)

/-- `list_for_each_prev` in at most `fuel` rounds, with the nodes it visits. -/
def listForEachPrev (fuel : ℕ) (m : Cells α) (head : α) : Option (List α) := do
  forEachFrom m.prev head fuel (← m.prev head)

section Safe

variable {σ : Type} (cells : σ → Cells α) (body : σ → α → Option σ)

/-- `list_for_each_safe` from `pos` on, with `n` saved. -/
def forEachSafeFrom (head : α) : ℕ → σ → α → α → Option (σ × List α)
  | 0, s, pos, _ => if pos = head then some (s, []) else none
  | fuel + 1, s, pos, n =>
    if pos = head then some (s, [])
    else do
      let s ← body s pos
      let (s, rest) ← forEachSafeFrom head fuel s n (← (cells s).next n)
      return (s, pos :: rest)

/-- `list_for_each_safe` in at most `fuel` rounds, with the nodes it visits. The body may write any
part of a state that has the cells in it. -/
def listForEachSafe (fuel : ℕ) (s : σ) (head : α) : Option (σ × List α) := do
  let pos ← (cells s).next head
  forEachSafeFrom cells body head fuel s pos (← (cells s).next pos)

end Safe

/-! ## The functions as a component -/

/-- Memory that comes and goes, and the calls. New memory holds anything. -/
inductive ListOp (α : Type)
  | alloc (a next prev : α)
  | free (a : α)
  | init (list : α)
  | add (new head : α)
  | addTail (new head : α)
  | del (entry : α)
  | delInit (entry : α)
  | replace (old new : α)
  | replaceInit (old new : α)
  | move (list head : α)
  | moveTail (list head : α)
  | rotateLeft (head : α)
  | cutPosition (list head entry : α)
  | splice (list head : α)
  | spliceTail (list head : α)
  | spliceInit (list head : α)
  | spliceTailInit (list head : α)
  | isLast (list head : α)
  | empty (head : α)
  | emptyCareful (head : α)
  | isSingular (head : α)
  | forEach (fuel : ℕ) (head : α)
  | forEachPrev (fuel : ℕ) (head : α)

/-- What a call shows. -/
inductive ListOut (α : Type)
  | done
  | answer (b : Bool)
  | visited (nodes : List α)
  deriving DecidableEq

/-- The cells once there is a node at `a`. -/
def alloc (m : Cells α) (a next prev : α) : Cells α where
  next := Function.update m.next a (some next)
  prev := Function.update m.prev a (some prev)

/-- The cells without the node at `a`. -/
def free (m : Cells α) (a : α) : Cells α where
  next := Function.update m.next a none
  prev := Function.update m.prev a none

/-- One step over the memory. -/
def ringStep (poison : ListPoison α) (m : Cells α) : ListOp α → Option (Cells α × ListOut α)
  | .alloc a next prev => some (alloc m a next prev, .done)
  | .free a => some (free m a, .done)
  | .init list => (initListHead m list).map (·, .done)
  | .add new head => (listAdd m new head).map (·, .done)
  | .addTail new head => (listAddTail m new head).map (·, .done)
  | .del entry => (listDel poison m entry).map (·, .done)
  | .delInit entry => (listDelInit m entry).map (·, .done)
  | .replace old new => (listReplace m old new).map (·, .done)
  | .replaceInit old new => (listReplaceInit m old new).map (·, .done)
  | .move list head => (listMove m list head).map (·, .done)
  | .moveTail list head => (listMoveTail m list head).map (·, .done)
  | .rotateLeft head => (listRotateLeft m head).map (·, .done)
  | .cutPosition list head entry => (listCutPosition m list head entry).map (·, .done)
  | .splice list head => (listSplice m list head).map (·, .done)
  | .spliceTail list head => (listSpliceTail m list head).map (·, .done)
  | .spliceInit list head => (listSpliceInit m list head).map (·, .done)
  | .spliceTailInit list head => (listSpliceTailInit m list head).map (·, .done)
  | .isLast list head => (listIsLast m list head).map fun b => (m, .answer b)
  | .empty head => (listEmpty m head).map fun b => (m, .answer b)
  | .emptyCareful head => (listEmptyCareful m head).map fun b => (m, .answer b)
  | .isSingular head => (listIsSingular m head).map fun b => (m, .answer b)
  | .forEach fuel head => (listForEach fuel m head).map fun l => (m, .visited l)
  | .forEachPrev fuel head => (listForEachPrev fuel m head).map fun l => (m, .visited l)

end HyUtils.HyList
