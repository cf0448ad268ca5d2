import HyUtils.HyList.Model

/-!
# What the list functions do to a ring

A function that is given nodes of a ring, and a node that is not on it, ties a few of them to each
other. Nothing else is written.

## Main results

* `listAdd_ring`, `listAddTail_ring`, `listDelEntry_ring`, `listReplace_ring`: one node
* `initListHead_ring`: a list with no entries
* `listSplice_ring`, `listSpliceTail_ring`, `listCutBetween_ring`: two lists
* `unmapped_initListHead`, `unmapped_listAddTail`, `unmapped_listDel`, `unmapped_free`: no node is
  made
-/

namespace HyUtils.HyList

open Rings

variable {α : Type} [DecidableEq α] {m : Cells α} {a b e p new head prev next list entry : α}
  {l r : List α}

theorem isSome_update (f : α → Option α) (a v b : α) :
    (Function.update f a (some v) b).isSome ↔ b = a ∨ (f b).isSome := by
  by_cases h : b = a
  · simp [h]
  · simp [h]

/-! ## The writes as ties -/

theorem initListHead_eq (h : Mapped m list) : initListHead m list = some (tie m list list) := by
  simp [initListHead, setNext, setPrev, tie, h.1, h.2]

theorem listAddBetween_eq (hnew : Mapped m new) (hprev : Mapped m prev) (hnext : Mapped m next) :
    listAddBetween m new prev next = some (tie (tie m new next) prev new) := by
  simp [listAddBetween, setNext, setPrev, tie, isSome_update, hnew.1, hnew.2, hprev.1, hnext.2]

theorem listDelBetween_eq (hprev : Mapped m prev) (hnext : Mapped m next) :
    listDelBetween m prev next = some (tie m prev next) := by
  simp [listDelBetween, setNext, setPrev, tie, hprev.1, hnext.2]

theorem listReplace_eq {n q : α} (hn : m.next a = some n)
    (hq : Function.update m.prev n (some new) a = some q) (hnew : Mapped m new) (hmn : Mapped m n)
    (hmq : Mapped m q) : listReplace m a new = some (tie (tie m new n) q new) := by
  simp [listReplace, setNext, setPrev, tie, isSome_update, hn, hq, hnew.1, hnew.2, hmn.2, hmq.1]

theorem listSpliceBetween_eq {first last : α} (hfirst : m.next list = some first)
    (hlast : m.prev list = some last) (hmf : Mapped m first) (hml : Mapped m last)
    (hprev : Mapped m prev) (hnext : Mapped m next) :
    listSpliceBetween m list prev next = some (tie (tie m prev first) last next) := by
  simp [listSpliceBetween, setNext, setPrev, tie, isSome_update, hfirst, hlast, hmf.2, hml.1,
    hprev.1, hnext.2]

theorem listCutBetween_eq {first newFirst : α} (hfirst : m.next head = some first)
    (hnew : m.next entry = some newFirst) (hlist : Mapped m list) (hmf : Mapped m first)
    (hmn : Mapped m newFirst) :
    listCutBetween m list head entry =
      some (tie (tie (tie m list first) entry list) head newFirst) := by
  simp [listCutBetween, setNext, setPrev, tie, isSome_update, hfirst, hnew, hlist.1, hlist.2,
    hmf.2, hmn.2]

/-! ## The nodes that are not there -/

theorem unmapped_initListHead {m' : Cells α} (h : initListHead m list = some m')
    (ha : Unmapped m a) : Unmapped m' a := by
  obtain ⟨m₁, hnext, hprev⟩ := Option.bind_eq_some_iff.mp h
  exact unmapped_setPrev hprev (unmapped_setNext hnext ha)

theorem unmapped_listAddTail {m' : Cells α} (h : listAddTail m new head = some m')
    (ha : Unmapped m a) : Unmapped m' a := by
  obtain ⟨prev, -, h⟩ := Option.bind_eq_some_iff.mp h
  obtain ⟨m₁, h₁, h⟩ := Option.bind_eq_some_iff.mp h
  obtain ⟨m₂, h₂, h⟩ := Option.bind_eq_some_iff.mp h
  obtain ⟨m₃, h₃, h₄⟩ := Option.bind_eq_some_iff.mp h
  exact unmapped_setNext h₄ (unmapped_setPrev h₃ (unmapped_setNext h₂ (unmapped_setPrev h₁ ha)))

theorem unmapped_listDel {m' : Cells α} {poison : ListPoison α}
    (h : listDel poison m entry = some m') (ha : Unmapped m a) : Unmapped m' a := by
  obtain ⟨m₂, h₂, h⟩ := Option.bind_eq_some_iff.mp h
  obtain ⟨prev, -, h₂⟩ := Option.bind_eq_some_iff.mp h₂
  obtain ⟨next, -, h₂⟩ := Option.bind_eq_some_iff.mp h₂
  obtain ⟨m₁, h₁, h₂⟩ := Option.bind_eq_some_iff.mp h₂
  obtain ⟨m₃, h₃, h₄⟩ := Option.bind_eq_some_iff.mp h
  exact unmapped_setPrev h₄ (unmapped_setNext h₃ (unmapped_setNext h₂ (unmapped_setPrev h₁ ha)))

theorem unmapped_alloc (ha : Unmapped m a) (hab : a ≠ b) (next prev : α) :
    Unmapped (alloc m b next prev) a :=
  ⟨(Function.update_of_ne hab _ _).trans ha.1, (Function.update_of_ne hab _ _).trans ha.2⟩

theorem unmapped_free_self (m : Cells α) (a : α) : Unmapped (free m a) a :=
  ⟨Function.update_self .., Function.update_self ..⟩

theorem unmapped_free (ha : Unmapped m a) (b : α) : Unmapped (free m b) a := by
  by_cases hab : a = b
  · exact hab ▸ unmapped_free_self m a
  · exact ⟨(Function.update_of_ne hab _ _).trans ha.1, (Function.update_of_ne hab _ _).trans ha.2⟩

/-! ## One node -/

/-- **`INIT_LIST_HEAD`** makes a list without entries. -/
theorem initListHead_ring (h : Mapped m list) :
    ∃ m', initListHead m list = some m' ∧ Ring m' [list] ∧ Frame m m' [list] :=
  ⟨_, initListHead_eq h, ring_singleton.mpr (tied_tie m list list),
    frame_tie m (by simp) (by simp)⟩

/-- **`list_add`** puts a node in behind another. -/
theorem listAdd_ring (h : Ring m (p :: l)) (hnew : Mapped m new) (hmem : new ∉ p :: l) :
    ∃ m', listAdd m new p = some m' ∧ Ring m' (p :: new :: l) ∧ Frame m m' (new :: p :: l) := by
  have hnext : Mapped m (l.headD p) := h.mapped (headD_mem l p)
  refine ⟨_, ?_, h.insert_next hmem, ?_⟩
  · rw [listAdd, h.next_eq]
    exact listAddBetween_eq hnew (h.mapped List.mem_cons_self) hnext
  · refine (frame_tie m (by simp) ?_).trans (frame_tie _ (by simp) (by simp))
    exact List.mem_cons_of_mem _ (headD_mem l p)

/-- **`list_add_tail`** puts a node in before another. -/
theorem listAddTail_ring (h : Ring m (p :: l)) (hnew : Mapped m new) (hmem : new ∉ p :: l) :
    ∃ m', listAddTail m new p = some m' ∧ Ring m' (p :: l ++ [new]) ∧
      Frame m m' (new :: p :: l) := by
  have hprev : Mapped m (l.getLastD p) := h.mapped (getLastD_mem l p)
  refine ⟨_, ?_, h.insert_prev hmem, ?_⟩
  · rw [listAddTail, h.prev_eq]
    exact listAddBetween_eq hnew hprev (h.mapped List.mem_cons_self)
  · refine (frame_tie m (by simp) (by simp)).trans (frame_tie _ ?_ (by simp))
    exact List.mem_cons_of_mem _ (getLastD_mem l p)

/-- **`__list_del_entry`** takes a node out. -/
theorem listDelEntry_ring (h : Ring m (p :: e :: l)) :
    ∃ m', listDelEntry m e = some m' ∧ Ring m' (p :: l) ∧ Frame m m' (p :: e :: l) := by
  have he : Ring m (e :: (l ++ [p])) := h.rotate [p] (e :: l)
  have hnext : m.next e = some (l.headD p) := by
    rw [he.next_eq]
    cases l <;> rfl
  have hprev : m.prev e = some p := by simpa using he.prev_eq
  have hmem : l.headD p ∈ p :: e :: l :=
    List.cons_subset_cons p (List.subset_cons_self e l) (headD_mem l p)
  refine ⟨_, ?_, h.remove, frame_tie m (by simp) hmem⟩
  rw [listDelEntry, hprev, hnext]
  exact listDelBetween_eq (h.mapped List.mem_cons_self) (h.mapped hmem)

/-- A node alone in its ring stays so. -/
theorem listDelEntry_ring_singleton (h : Ring m [e]) :
    ∃ m', listDelEntry m e = some m' ∧ Ring m' [e] ∧ Frame m m' [e] := by
  have he : e ∈ [e] := List.mem_cons_self
  refine ⟨_, ?_, ring_singleton.mpr (tied_tie m e e), frame_tie m he he⟩
  rw [listDelEntry, h.prev_eq, h.next_eq]
  have hmapped : Mapped m e := h.mapped List.mem_cons_self
  exact listDelBetween_eq hmapped hmapped

/-- **`list_replace`** puts a node in the place of another. -/
theorem listReplace_ring (h : Ring m (a :: l)) (hnew : Mapped m new) (hmem : new ∉ a :: l) :
    ∃ m', listReplace m a new = some m' ∧ Ring m' (new :: l) ∧ Frame m m' (new :: a :: l) := by
  have hq : Function.update m.prev (l.headD a) (some new) a = some (l.getLastD new) := by
    rcases List.eq_nil_or_concat l with rfl | ⟨l, q, rfl⟩
    · simp
    · -- the node after `a` is another one
      have hne : a ≠ (l.concat q).headD a := by
        rintro heq
        refine (List.nodup_cons.mp h.nodup).1 (heq ▸ ?_)
        cases l <;> simp
      rw [Function.update_of_ne hne, h.prev_eq]
      simp
  have hlast : l.getLastD new ∈ new :: a :: l :=
    List.cons_subset_cons new (List.subset_cons_self a l) (getLastD_mem l new)
  have hmapped : ∀ b ∈ new :: a :: l, Mapped m b := by
    rintro b (- | ⟨_, hb⟩)
    · exact hnew
    · exact h.mapped hb
  have hhead : l.headD a ∈ a :: l := headD_mem l a
  refine ⟨_, listReplace_eq h.next_eq hq hnew (h.mapped hhead) (hmapped _ hlast),
    h.replace hmem, ?_⟩
  exact (frame_tie m (by simp) (List.mem_cons_of_mem _ hhead)).trans
    (frame_tie _ hlast (by simp))

/-! ## Whether a list has entries -/

theorem listEmpty_ring (h : Ring m (a :: l)) : listEmpty m a = some l.isEmpty := by
  rw [listEmpty, h.next_eq]
  cases l with
  | nil => simp
  | cons b l =>
    have hne : b ≠ a := fun heq => (List.nodup_cons.mp h.nodup).1 (by simp [heq])
    simp [hne]

theorem listEmptyCareful_ring (h : Ring m (a :: l)) : listEmptyCareful m a = some l.isEmpty := by
  rw [listEmptyCareful, h.next_eq, h.prev_eq]
  cases l with
  | nil => simp
  | cons b l =>
    have hne : b ≠ a := fun heq => (List.nodup_cons.mp h.nodup).1 (by simp [heq])
    simp [hne]

theorem listIsSingular_ring (h : Ring m (a :: l)) :
    listIsSingular m a = some (decide (l.length = 1)) := by
  rw [listIsSingular, listEmpty_ring h, h.next_eq, h.prev_eq]
  match l, h with
  | [], _ => simp
  | [b], _ => simp
  | b :: c :: l, h =>
    -- the first entry is not the last one
    have hne : b ≠ l.getLastD c := fun heq =>
      (List.nodup_cons.mp (List.nodup_cons.mp h.nodup).2).1 (heq ▸ getLastD_mem l c)
    rw [List.getLastD_cons, List.getLastD_cons]
    simp [-List.getLastD_eq_getLast?, hne]

theorem listIsLast_ring (h : Ring m (a :: l)) (he : e ∈ a :: l) :
    listIsLast m e a = some (decide ((a :: l).getLast? = some e)) := by
  obtain ⟨pre, post, hl⟩ := List.append_of_mem he
  have hring : Ring m (pre ++ e :: post) := hl ▸ h
  have hfront : Ring m (e :: (post ++ pre)) := hring.rotate pre (e :: post)
  rw [listIsLast, hfront.next_eq, hl]
  cases post with
  | nil =>
    -- the first node comes after the last one
    have hfirst : pre.headD e = a := by cases pre <;> simp_all
    simp [-List.headD_eq_head?_getD, hfirst]
  | cons b post =>
    have hba : b ≠ a := by
      rintro rfl
      have hnodup := hring.nodup
      cases pre with
      | nil => simp_all
      | cons c pre => simp_all
    have hlast : (b :: post).getLast? ≠ some e := fun heq =>
      (List.nodup_cons.mp hfront.nodup).1 (List.mem_append_left _ (List.mem_of_getLast? heq))
    simp [hba, List.getLast?_append, hlast]

/-! ## Two lists -/

/-- **`list_splice`** puts the entries of a list in behind a node. -/
theorem listSpliceBetween_ring_next (h : Ring m (p :: l)) (h' : Ring m (b :: r)) (hr : r ≠ [])
    (hdisjoint : List.Disjoint (p :: l) (b :: r)) :
    ∃ m', listSpliceBetween m b p (l.headD p) = some m' ∧ Ring m' (p :: r ++ l) ∧
      Frame m m' (r ++ p :: l) := by
  have hfirst : r.headD b ∈ r := by cases r <;> simp_all
  have hlast : r.getLastD b ∈ r := by
    obtain ⟨r, q, rfl⟩ := (List.eq_nil_or_concat r).resolve_left hr
    simp
  refine ⟨_, listSpliceBetween_eq h'.next_eq h'.prev_eq (h'.mapped (headD_mem r b))
    (h'.mapped (getLastD_mem r b)) (h.mapped List.mem_cons_self) (h.mapped (headD_mem l p)),
    h.splice_next h' hr fun c hc hcr => hdisjoint hc (List.mem_cons_of_mem _ hcr), ?_⟩
  exact (frame_tie m (by simp) (List.mem_append_left _ hfirst)).trans
    (frame_tie _ (List.mem_append_left _ hlast) (List.mem_append_right _ (headD_mem l p)))

/-- **`list_splice_tail`** puts the entries of a list in before a node. -/
theorem listSpliceBetween_ring_prev (h : Ring m (p :: l)) (h' : Ring m (b :: r)) (hr : r ≠ [])
    (hdisjoint : List.Disjoint (p :: l) (b :: r)) :
    ∃ m', listSpliceBetween m b (l.getLastD p) p = some m' ∧ Ring m' (p :: l ++ r) ∧
      Frame m m' (r ++ p :: l) := by
  have hfirst : r.headD b ∈ r := by cases r <;> simp_all
  have hlast : r.getLastD b ∈ r := by
    obtain ⟨r, q, rfl⟩ := (List.eq_nil_or_concat r).resolve_left hr
    simp
  refine ⟨_, listSpliceBetween_eq h'.next_eq h'.prev_eq (h'.mapped (headD_mem r b))
    (h'.mapped (getLastD_mem r b)) (h.mapped (getLastD_mem l p)) (h.mapped List.mem_cons_self),
    h.splice_prev h' hr fun c hc hcr => hdisjoint hc (List.mem_cons_of_mem _ hcr), ?_⟩
  exact (frame_tie m (List.mem_append_right _ (getLastD_mem l p))
    (List.mem_append_left _ hfirst)).trans (frame_tie _ (List.mem_append_left _ hlast) (by simp))

/-- **`__list_cut_position`** moves the entries up to one of them to another list. -/
theorem listCutBetween_ring (h : Ring m (a :: (l ++ e :: r))) (hb : Mapped m b)
    (hmem : b ∉ a :: (l ++ e :: r)) :
    ∃ m', listCutBetween m b a e = some m' ∧ Ring m' (b :: (l ++ [e])) ∧ Ring m' (a :: r) ∧
      Frame m m' (b :: a :: (l ++ e :: r)) := by
  have he : Ring m (e :: (r ++ a :: l)) := by simpa using h.rotate (a :: l) (e :: r)
  have hfirst : m.next a = some (l.headD e) := by
    rw [h.next_eq]
    cases l <;> rfl
  have hnext : m.next e = some (r.headD a) := by
    rw [he.next_eq]
    cases r <;> rfl
  have hhead : l.headD e ∈ a :: (l ++ e :: r) := by cases l <;> simp
  have hnewFirst : r.headD a ∈ a :: (l ++ e :: r) := by cases r <;> simp
  obtain ⟨hleft, hright⟩ := h.cut hmem
  refine ⟨_, listCutBetween_eq hfirst hnext hb (h.mapped hhead) (h.mapped hnewFirst), hleft,
    hright, ?_⟩
  exact ((frame_tie m (by simp) (List.mem_cons_of_mem _ hhead)).trans
    (frame_tie _ (by simp) (by simp))).trans
      (frame_tie _ (by simp) (List.mem_cons_of_mem _ hnewFirst))

/-- The tests of `list_cut_position` on a list with entries. -/
theorem listCutPosition_ring (h : Ring m (a :: l)) (hl : l ≠ []) :
    listCutPosition m b a e =
      if l.length = 1 ∧ l.headD a ≠ e ∧ a ≠ e then some m
      else if e = a then initListHead m b
      else listCutBetween m b a e := by
  have hfull : l.isEmpty = false := by simpa using hl
  rw [listCutPosition, listEmpty_ring h, hfull, listIsSingular_ring h, h.next_eq]
  simp [and_assoc]

end HyUtils.HyList
