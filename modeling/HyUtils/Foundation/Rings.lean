import Mathlib.Data.List.Chain
import Mathlib.Data.List.Nodup
import Mathlib.Data.List.Rotate
import Mathlib.Logic.Function.Basic

/-!
# Rings of nodes

Each node has two cells, one with the node after it and one with the node before it. A ring is a
circular list of nodes whose cells agree, and may be read from any of its nodes. The edits of a
ring write the cells of a few neighbours; each of them ties two nodes to each other.

## Main definitions

* `Cells α`: the cells of the nodes, where an address without a node has none
* `setNext`, `setPrev`: the writes of one cell
* `Tied m a b`, `tie m a b`: `b` comes after `a`; the cells after this is written
* `Linked m l`: the nodes of `l` are tied one after the other
* `Ring m l`: the nodes of `l`, all different, are tied in a circle
* `Frame m m' l`: between `m` and `m'` only cells of the nodes in `l` are written

## Main results

* `Linked.tie_cons`, `Linked.close`: what a tie joins
* `Ring.rotate`: a ring may be read from any of its nodes
* `Ring.insert_next`, `Ring.insert_prev`, `Ring.remove`, `Ring.replace`: the edits of one node
* `Ring.splice_next`, `Ring.splice_prev`, `Ring.cut`: joining two rings, and cutting one in two
* `Ring.congr`, `Frame.ring`: what is written elsewhere leaves a ring alone
-/

namespace Rings

variable {α : Type*}

/-- The cells of the nodes; an address without a node has none. -/
@[ext] structure Cells (α : Type*) where
  next : α → Option α
  prev : α → Option α

/-- There is a node at an address. -/
def Mapped (m : Cells α) (a : α) : Prop := (m.next a).isSome ∧ (m.prev a).isSome

/-- There is no node at an address. -/
def Unmapped (m : Cells α) (a : α) : Prop := m.next a = none ∧ m.prev a = none

/-- One node comes right after another. -/
def Tied (m : Cells α) (a b : α) : Prop := m.next a = some b ∧ m.prev b = some a

/-- Nodes that come one after the other. -/
def Linked (m : Cells α) (l : List α) : Prop := l.IsChain (Tied m)

/-- Different nodes that come one after the other, and the first of them after the last. -/
structure Ring (m : Cells α) (l : List α) : Prop where
  linked : Linked m (l ++ l.take 1)
  nodup : l.Nodup

theorem linked_cons_cons {m : Cells α} {a b : α} {l : List α} :
    Linked m (a :: b :: l) ↔ Tied m a b ∧ Linked m (b :: l) := List.isChain_cons_cons

theorem linked_split {m : Cells α} {a : α} {l l' : List α} :
    Linked m (l ++ a :: l') ↔ Linked m (l ++ [a]) ∧ Linked m (a :: l') := List.isChain_split

/-- Cells that agree on the nodes of a list agree on whether it is linked. -/
theorem Linked.congr {m m' : Cells α} {l : List α} (h : Linked m l)
    (hnext : ∀ a ∈ l.dropLast, m'.next a = m.next a) (hprev : ∀ a ∈ l.tail, m'.prev a = m.prev a) :
    Linked m' l := by
  induction l with
  | nil => exact .nil
  | cons a l ih =>
    cases l with
    | nil => exact .singleton a
    | cons b l =>
      obtain ⟨htied, hlinked⟩ := linked_cons_cons.mp h
      rw [List.dropLast_cons_cons] at hnext
      refine linked_cons_cons.mpr ⟨⟨?_, ?_⟩, ih hlinked ?_ ?_⟩
      · exact (hnext a List.mem_cons_self).trans htied.1
      · exact (hprev b List.mem_cons_self).trans htied.2
      · exact fun c hc => hnext c (List.mem_cons_of_mem _ hc)
      · exact fun c hc => hprev c (List.mem_cons_of_mem _ hc)

/-! ## Reading a ring -/

theorem headD_mem (l : List α) (a : α) : l.headD a ∈ a :: l := by cases l <;> simp

theorem getLastD_mem (l : List α) (a : α) : l.getLastD a ∈ a :: l := by
  rcases List.eq_nil_or_concat l with rfl | ⟨l, b, rfl⟩ <;> simp

section Read

variable {m m' : Cells α} {a b : α} {l l' : List α}

theorem ring_cons : Ring m (a :: l) ↔ Linked m (a :: l ++ [a]) ∧ (a :: l).Nodup :=
  ⟨fun h => ⟨h.linked, h.nodup⟩, fun h => ⟨h.1, h.2⟩⟩

theorem ring_singleton : Ring m [a] ↔ Tied m a a := by
  rw [ring_cons]
  exact ⟨fun h => (linked_cons_cons.mp h.1).1,
    fun h => ⟨linked_cons_cons.mpr ⟨h, .singleton a⟩, List.nodup_singleton a⟩⟩

/-- The node after the first one. -/
theorem Ring.next_eq (h : Ring m (a :: l)) : m.next a = some (l.headD a) := by
  cases l with
  | nil => exact (ring_singleton.mp h).1
  | cons b l => exact (linked_cons_cons.mp h.linked).1.1

/-- The node before the first one. -/
theorem Ring.prev_eq (h : Ring m (a :: l)) : m.prev a = some (l.getLastD a) := by
  rcases List.eq_nil_or_concat l with rfl | ⟨l, b, rfl⟩
  · exact (ring_singleton.mp h).2
  · have hlinked : Linked m (a :: l ++ b :: [a]) := by simpa using h.linked
    have hlast : (l.concat b).getLastD a = b := by simp
    rw [hlast]
    exact (linked_cons_cons.mp (linked_split.mp hlinked).2).1.2

/-- A ring may be read from any of its nodes. -/
theorem Ring.rotate (l l' : List α) (h : Ring m (l ++ l')) : Ring m (l' ++ l) := by
  cases l with
  | nil => rwa [List.append_nil]
  | cons a l =>
    cases l' with
    | nil => rwa [List.append_nil] at h
    | cons b l' =>
      refine ⟨?_, List.nodup_append_comm.mp h.nodup⟩
      -- from the second part over the seam to the first one, and back to the second one
      have hlinked : Linked m (a :: l ++ b :: (l' ++ [a])) := by simpa using h.linked
      obtain ⟨hfirst, hsecond⟩ := linked_split.mp hlinked
      have hgoal : Linked m (b :: l' ++ a :: (l ++ [b])) := linked_split.mpr ⟨hsecond, hfirst⟩
      simpa using hgoal

theorem Ring.mapped (h : Ring m l) (ha : a ∈ l) : Mapped m a := by
  obtain ⟨pre, post, rfl⟩ := List.append_of_mem ha
  have hfront : Ring m (a :: (post ++ pre)) := h.rotate pre (a :: post)
  exact ⟨hfront.next_eq ▸ rfl, hfront.prev_eq ▸ rfl⟩

/-- What is written elsewhere leaves a ring alone. -/
theorem Ring.congr (h : Ring m l) (hnext : ∀ a ∈ l, m'.next a = m.next a)
    (hprev : ∀ a ∈ l, m'.prev a = m.prev a) : Ring m' l := by
  have hmem : ∀ a ∈ l ++ l.take 1, a ∈ l := fun a ha =>
    (List.mem_append.mp ha).elim id fun ha => List.mem_of_mem_take ha
  exact ⟨h.linked.congr (fun a ha => hnext a (hmem a (List.mem_of_mem_dropLast ha)))
    (fun a ha => hprev a (hmem a (List.mem_of_mem_tail ha))), h.nodup⟩

end Read

/-! ## Writes -/

section Write

variable [DecidableEq α] {m : Cells α} {a b c v : α}

/-- Write the cell with the node after `a`. -/
def setNext (m : Cells α) (a v : α) : Option (Cells α) :=
  if (m.next a).isSome then some { m with next := Function.update m.next a (some v) } else none

/-- Write the cell with the node before `a`. -/
def setPrev (m : Cells α) (a v : α) : Option (Cells α) :=
  if (m.prev a).isSome then some { m with prev := Function.update m.prev a (some v) } else none

theorem setNext_of_mapped (h : Mapped m a) (v : α) :
    setNext m a v = some { m with next := Function.update m.next a (some v) } := if_pos h.1

theorem setPrev_of_mapped (h : Mapped m a) (v : α) :
    setPrev m a v = some { m with prev := Function.update m.prev a (some v) } := if_pos h.2

/-- The cells once `b` comes right after `a`. -/
def tie (m : Cells α) (a b : α) : Cells α where
  next := Function.update m.next a (some b)
  prev := Function.update m.prev b (some a)

@[simp] theorem next_tie (m : Cells α) (a b c : α) :
    (tie m a b).next c = if c = a then some b else m.next c := Function.update_apply _ _ _ _

@[simp] theorem prev_tie (m : Cells α) (a b c : α) :
    (tie m a b).prev c = if c = b then some a else m.prev c := Function.update_apply _ _ _ _

theorem tied_tie (m : Cells α) (a b : α) : Tied (tie m a b) a b := by simp [Tied]

theorem mapped_setNext {m' : Cells α} (h : setNext m a v = some m') (hc : Mapped m c) :
    Mapped m' c := by
  rw [setNext] at h
  split_ifs at h
  cases h
  refine ⟨?_, hc.2⟩
  by_cases hca : c = a
  · simp [hca]
  · simpa [hca] using hc.1

theorem mapped_setPrev {m' : Cells α} (h : setPrev m a v = some m') (hc : Mapped m c) :
    Mapped m' c := by
  rw [setPrev] at h
  split_ifs at h
  cases h
  refine ⟨hc.1, ?_⟩
  by_cases hca : c = a
  · simp [hca]
  · simpa [hca] using hc.2

/-- A write makes no node. -/
theorem unmapped_setNext {m' : Cells α} (h : setNext m a v = some m') (hc : Unmapped m c) :
    Unmapped m' c := by
  rw [setNext] at h
  split_ifs at h with ha
  cases h
  -- only a node that is there can be written
  have hca : c ≠ a := by
    rintro rfl
    rw [hc.1] at ha
    cases ha
  exact ⟨(Function.update_of_ne hca _ _).trans hc.1, hc.2⟩

theorem unmapped_setPrev {m' : Cells α} (h : setPrev m a v = some m') (hc : Unmapped m c) :
    Unmapped m' c := by
  rw [setPrev] at h
  split_ifs at h with ha
  cases h
  have hca : c ≠ a := by
    rintro rfl
    rw [hc.2] at ha
    cases ha
  exact ⟨hc.1, (Function.update_of_ne hca _ _).trans hc.2⟩

theorem mapped_tie (hc : Mapped m c) (a b : α) : Mapped (tie m a b) c := by
  refine ⟨?_, ?_⟩
  · rw [next_tie]
    split_ifs
    · rfl
    · exact hc.1
  · rw [prev_tie]
    split_ifs
    · rfl
    · exact hc.2

/-- A tie of nodes that do not occur, or only at the far ends, leaves a list linked. -/
theorem Linked.tie_elsewhere {l : List α} (h : Linked m l) (ha : a ∉ l.dropLast) (hb : b ∉ l.tail) :
    Linked (tie m a b) l := by
  refine h.congr (fun c hc => ?_) (fun c hc => ?_)
  · rw [next_tie, if_neg (ne_of_mem_of_not_mem hc ha)]
  · rw [prev_tie, if_neg (ne_of_mem_of_not_mem hc hb)]

theorem Ring.tie_elsewhere {l : List α} (h : Ring m l) (ha : a ∉ l) (hb : b ∉ l) :
    Ring (tie m a b) l := by
  refine h.congr (fun c hc => ?_) (fun c hc => ?_)
  · rw [next_tie, if_neg (ne_of_mem_of_not_mem hc ha)]
  · rw [prev_tie, if_neg (ne_of_mem_of_not_mem hc hb)]

/-- **What a tie joins**: a node to the first of a linked list. -/
theorem Linked.tie_head {r : List α} (h : Linked m (r ++ [c])) (hnodup : (r ++ [c]).Nodup)
    (ha : a ∉ r) : Linked (tie m a (r.headD c)) (a :: (r ++ [c])) := by
  cases r with
  | nil => exact linked_cons_cons.mpr ⟨tied_tie m a c, .singleton c⟩
  | cons b r =>
    refine linked_cons_cons.mpr ⟨tied_tie m a b, h.tie_elsewhere ?_ ?_⟩
    · rwa [List.dropLast_concat]
    · exact (List.nodup_cons.mp hnodup).1

/-- A list that leads to a node becomes a ring when that node is tied to its start. -/
theorem Linked.close {r : List α} (h : Linked m (r ++ [a])) (hnodup : (a :: r).Nodup) :
    Ring (tie m a (r.headD a)) (a :: r) :=
  ring_cons.mpr
    ⟨h.tie_head (List.nodup_append_comm.mp hnodup) (List.nodup_cons.mp hnodup).1, hnodup⟩

end Write

/-! ## What a write leaves alone -/

/-- Only cells of the nodes in `l` are written, and every node stays one. -/
structure Frame (m m' : Cells α) (l : List α) : Prop where
  next : ∀ a ∉ l, m'.next a = m.next a
  prev : ∀ a ∉ l, m'.prev a = m.prev a
  mapped : ∀ a, Mapped m a → Mapped m' a

section Frame

variable {m m' m'' : Cells α} {a b : α} {l l' : List α}

theorem Frame.refl (m : Cells α) (l : List α) : Frame m m l :=
  ⟨fun _ _ => rfl, fun _ _ => rfl, fun _ h => h⟩

theorem Frame.trans (h : Frame m m' l) (h' : Frame m' m'' l) : Frame m m'' l :=
  ⟨fun a ha => (h'.next a ha).trans (h.next a ha), fun a ha => (h'.prev a ha).trans (h.prev a ha),
    fun a ha => h'.mapped a (h.mapped a ha)⟩

theorem Frame.mono (h : Frame m m' l) (hl : l ⊆ l') : Frame m m' l' :=
  ⟨fun a ha => h.next a fun hmem => ha (hl hmem), fun a ha => h.prev a fun hmem => ha (hl hmem),
    h.mapped⟩

theorem Frame.ring (h : Frame m m' l) (hring : Ring m l') (hdisjoint : List.Disjoint l' l) :
    Ring m' l' :=
  hring.congr (fun a ha => h.next a (hdisjoint ha)) (fun a ha => h.prev a (hdisjoint ha))

variable [DecidableEq α]

/-- A write of a node succeeds. -/
theorem exists_setNext (h : Mapped m a) (v : α) :
    ∃ m', setNext m a v = some m' ∧ Frame m m' [a] := by
  refine ⟨_, setNext_of_mapped h v, fun b hb => ?_, fun _ _ => rfl, fun b hb => ?_⟩
  · exact Function.update_of_ne (by simpa using hb) _ _
  · exact mapped_setNext (setNext_of_mapped h v) hb

theorem exists_setPrev (h : Mapped m a) (v : α) :
    ∃ m', setPrev m a v = some m' ∧ Frame m m' [a] := by
  refine ⟨_, setPrev_of_mapped h v, fun _ _ => rfl, fun b hb => ?_, fun b hb => ?_⟩
  · exact Function.update_of_ne (by simpa using hb) _ _
  · exact mapped_setPrev (setPrev_of_mapped h v) hb

theorem frame_tie (m : Cells α) (ha : a ∈ l) (hb : b ∈ l) : Frame m (tie m a b) l where
  next c hc := by rw [next_tie, if_neg (ne_of_mem_of_not_mem ha hc).symm]
  prev c hc := by rw [prev_tie, if_neg (ne_of_mem_of_not_mem hb hc).symm]
  mapped c hc := mapped_tie hc a b

end Frame

/-! ## Edits of a ring -/

section Edit

variable [DecidableEq α] {m : Cells α} {a b e new : α} {l r ys : List α}

omit [DecidableEq α] in
theorem Ring.linked_tail (h : Ring m (a :: l)) : Linked m (l ++ [a]) := h.linked.tail

omit [DecidableEq α] in
theorem Ring.nodup_tail (h : Ring m (a :: l)) : (l ++ [a]).Nodup :=
  List.nodup_append_comm.mp h.nodup

/-- A node put in behind another. -/
theorem Ring.insert_next (h : Ring m (a :: l)) (hnew : new ∉ a :: l) :
    Ring (tie (tie m new (l.headD a)) a new) (a :: new :: l) := by
  have hnodup : (a :: new :: l).Nodup :=
    (List.Perm.swap a new l).nodup (List.nodup_cons.mpr ⟨hnew, h.nodup⟩)
  -- `new` leads to what followed `a`, and `a` to `new`
  have hl : new ∉ l := fun hmem => hnew (List.mem_cons_of_mem _ hmem)
  exact Linked.close (r := new :: l) (h.linked_tail.tie_head h.nodup_tail hl) hnodup

/-- A node put in before another: as seen from that one, behind all others. -/
theorem Ring.insert_prev (h : Ring m (a :: l)) (hnew : new ∉ a :: l) :
    Ring (tie (tie m new a) (l.getLastD a) new) (a :: l ++ [new]) := by
  rcases List.eq_nil_or_concat l with rfl | ⟨l, q, rfl⟩
  · exact h.insert_next hnew
  · rw [List.concat_eq_append] at h hnew ⊢
    have hq : Ring m (q :: a :: l) := h.rotate (a :: l) [q]
    have hnot : new ∉ q :: a :: l := fun hmem => hnew (by simp at hmem ⊢; tauto)
    have hring := hq.insert_next hnot
    have hlast : (l ++ [q]).getLastD a = q := by simp
    rw [hlast]
    simpa using hring.rotate [q, new] (a :: l)

/-- The node behind another taken out. -/
theorem Ring.remove (h : Ring m (a :: e :: l)) : Ring (tie m a (l.headD a)) (a :: l) :=
  Linked.close h.linked_tail.tail (h.nodup.sublist (by simp))

/-- A node put in the place of another. When the other is alone, the node before it is by then the
new one. -/
theorem Ring.replace (h : Ring m (a :: l)) (hnew : new ∉ a :: l) :
    Ring (tie (tie m new (l.headD a)) (l.getLastD new) new) (new :: l) := by
  obtain ⟨hne, hl⟩ := not_or.mp (List.mem_cons.not.mp hnew)
  rcases List.eq_nil_or_concat l with rfl | ⟨l, q, rfl⟩
  · exact ring_singleton.mpr (tied_tie _ new new)
  · rw [List.concat_eq_append] at h hl ⊢
    have hlast : (l ++ [q]).getLastD new = q := by simp
    have hhead : (l ++ [q]).headD a = l.headD q := by cases l <;> rfl
    rw [hlast, hhead]
    have hnodup : (l ++ [q]).Nodup := (List.nodup_cons.mp h.nodup).2
    have hlinked : Linked m (l ++ q :: [a]) := by simpa using h.linked_tail
    have hperm : (new :: l ++ [q]).Perm ([q] ++ new :: l) := List.perm_append_comm
    have hnodup' : (q :: new :: l).Nodup := hperm.nodup (List.nodup_cons.mpr ⟨hl, hnodup⟩)
    have hring := Linked.close (r := new :: l)
      ((linked_split.mp hlinked).1.tie_head hnodup fun hmem => hl (List.mem_append_left _ hmem))
      hnodup'
    simpa using hring.rotate [q] (new :: l)

/-- The nodes behind `b` put in behind `a`, without `b`. -/
theorem Ring.splice_next (h : Ring m (a :: l)) (h' : Ring m (b :: r)) (hr : r ≠ [])
    (hdisjoint : List.Disjoint (a :: l) r) :
    Ring (tie (tie m a (r.headD b)) (r.getLastD b) (l.headD a)) (a :: r ++ l) := by
  obtain ⟨r, q, rfl⟩ := (List.eq_nil_or_concat r).resolve_left hr
  rw [List.concat_eq_append] at h' hdisjoint ⊢
  have hlast : (r ++ [q]).getLastD b = q := by simp
  have hhead : (r ++ [q]).headD b = r.headD q := by cases r <;> rfl
  rw [hlast, hhead]
  have hq : (r ++ [q]).Nodup := (List.nodup_cons.mp h'.nodup).2
  have hlinked : Linked m (r ++ q :: [b]) := by simpa using h'.linked_tail
  have hperm : (q :: (l ++ a :: r)).Perm (q :: a :: (l ++ r)) := List.perm_middle.cons q
  have hnodup : (q :: a :: (l ++ r)).Nodup := by
    have hall : (a :: l ++ (r ++ [q])).Nodup := h.nodup.append hq hdisjoint
    rw [← List.append_assoc] at hall
    exact List.nodup_append_comm.mp hall
  have ha : a ∉ r := fun hmem => hdisjoint List.mem_cons_self (List.mem_append_left _ hmem)
  -- `a` leads to the nodes behind `b`, and what leads to `a` is as before
  have hsecond := (linked_split.mp hlinked).1.tie_head hq ha
  have hfirst : Linked (tie m a (r.headD q)) (l ++ [a]) := by
    refine h.linked_tail.tie_elsewhere ?_ fun hmem => ?_
    · rw [List.dropLast_concat]
      exact (List.nodup_cons.mp h.nodup).1
    · have hmem' : r.headD q ∈ a :: l := by
        simpa [or_comm] using List.mem_of_mem_tail hmem
      exact hdisjoint hmem' (by cases r <;> simp)
  have hlinked' : Linked (tie m a (r.headD q)) (l ++ a :: r ++ [q]) := by
    rw [List.append_assoc]
    exact linked_split.mpr ⟨hfirst, hsecond⟩
  simpa using (hlinked'.close (hperm.nodup_iff.mpr hnodup)).rotate (q :: l) (a :: r)

/-- The nodes behind `b` put in before `a`, without `b`. -/
theorem Ring.splice_prev (h : Ring m (a :: l)) (h' : Ring m (b :: r)) (hr : r ≠ [])
    (hdisjoint : List.Disjoint (a :: l) r) :
    Ring (tie (tie m (l.getLastD a) (r.headD b)) (r.getLastD b) a) (a :: l ++ r) := by
  rcases List.eq_nil_or_concat l with rfl | ⟨l, q, rfl⟩
  · simpa using h.splice_next h' hr hdisjoint
  · rw [List.concat_eq_append] at h hdisjoint ⊢
    have hq : Ring m (q :: a :: l) := h.rotate (a :: l) [q]
    have hlast : (l ++ [q]).getLastD a = q := by simp
    have hring := hq.splice_next h' hr fun c hc => hdisjoint (by simp at hc ⊢; tauto)
    rw [hlast]
    simpa using hring.rotate (q :: r) (a :: l)

/-- The nodes behind `a` up to `e` taken out and put behind `b`. -/
theorem Ring.cut (h : Ring m (a :: (l ++ e :: r))) (hb : b ∉ a :: (l ++ e :: r)) :
    Ring (tie (tie (tie m b (l.headD e)) e b) a (r.headD a)) (b :: (l ++ [e])) ∧
      Ring (tie (tie (tie m b (l.headD e)) e b) a (r.headD a)) (a :: r) := by
  have hlinked : Linked m (l ++ e :: (r ++ [a])) := by simpa using h.linked_tail
  obtain ⟨hleft, hright⟩ := linked_split.mp hlinked
  obtain ⟨ha, hall⟩ := List.nodup_cons.mp h.nodup
  obtain ⟨hl, her, hdisjoint⟩ := List.nodup_append'.mp hall
  obtain ⟨he, hr⟩ := List.nodup_cons.mp her
  have hfirst : l.headD e ∈ l ++ [e] := by cases l <;> simp
  have hnext : r.headD a ∈ r ++ [a] := by cases r <;> simp
  simp only [List.mem_cons, List.mem_append, not_or] at ha hb
  have hle : (l ++ [e]).Nodup := List.nodup_append'.mpr ⟨hl, List.nodup_singleton e,
    fun c hc hce => hdisjoint hc (by simp [List.mem_singleton.mp hce])⟩
  have hapart : ∀ c ∈ r ++ [a], c ∉ b :: (l ++ [e]) := by grind
  constructor
  · -- `b` leads to the nodes up to `e`, and `e` to `b`
    have hring := Linked.close (r := b :: l) (hleft.tie_head hle (by grind)) (by grind)
    have hturned : Ring (tie (tie m b (l.headD e)) e b) (b :: (l ++ [e])) := by
      simpa using hring.rotate [e] (b :: l)
    exact hturned.tie_elsewhere (hapart a (by simp)) (hapart _ hnext)
  · -- what leads to `a` is as before
    have htail : Linked m (r ++ [a]) := hright.tail
    refine Linked.close ((htail.tie_elsewhere ?_ ?_).tie_elsewhere ?_ ?_) (by grind)
    · exact fun hmem => hapart b (List.mem_of_mem_dropLast hmem) (by simp)
    · exact fun hmem => hapart _ (List.mem_of_mem_tail hmem) (List.mem_cons_of_mem _ hfirst)
    · exact fun hmem => hapart e (List.mem_of_mem_dropLast hmem) (by simp)
    · exact fun hmem => hapart b (List.mem_of_mem_tail hmem) (by simp)

end Edit

end Rings
