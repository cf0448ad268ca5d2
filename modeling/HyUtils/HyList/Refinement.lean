import HyUtils.Foundation.Run
import HyUtils.Foundation.SavedSuccessor
import HyUtils.HyList.Lists
import HyUtils.HyList.Traverse

/-!
# The list functions keep the lists

## Main definitions

* `Represents m A`: the cells `m` hold the nodes and lists `A`

## Main results

* `Represents.edit`: what a call that writes a few nodes leaves of the lists
* `Represents.step`: every allowed call
* `lists_kept`: every run of allowed calls keeps the lists
-/

namespace HyUtils.HyList

open Rings Runs

variable {α : Type} [DecidableEq α] {m m' : Cells α} {A : ListTable α} {a h p new head entry : α}
  {xs ys : List α}

/-- The cells hold the nodes, and each list as a ring through its head. Lists have no nodes in
common. -/
structure Represents (m : Cells α) (A : ListTable α) : Prop where
  mapped : ∀ a, A.live a = true → Mapped m a
  live : ∀ h xs, A.entries h = some xs → ∀ a ∈ h :: xs, A.live a = true
  ring : ∀ h xs, A.entries h = some xs → Ring m (h :: xs)
  apart : ∀ h h' xs xs', A.entries h = some xs → A.entries h' = some xs' → h ≠ h' →
    List.Disjoint (h :: xs) (h' :: xs')

omit [DecidableEq α] in
/-- **What a call leaves of the lists**: those it does not touch, and those it makes of the nodes it
writes. -/
theorem Represents.edit {touched : List α} {f : α → Option (List α)} (hrep : Represents m A)
    (made : List (α × List α)) (hframe : Frame m m' touched)
    (hlive : ∀ a ∈ touched, A.live a = true)
    (hf : ∀ h xs, f h = some xs →
      (h, xs) ∈ made ∨ A.entries h = some xs ∧ List.Disjoint (h :: xs) touched)
    (hmade : ∀ l ∈ made, Ring m' (l.1 :: l.2) ∧ l.1 :: l.2 ⊆ touched)
    (hapart : ∀ l ∈ made, ∀ l' ∈ made, l.1 ≠ l'.1 → List.Disjoint (l.1 :: l.2) (l'.1 :: l'.2)) :
    Represents m' { A with entries := f } where
  mapped a ha := hframe.mapped a (hrep.mapped a ha)
  live h xs hh a ha := by
    rcases hf h xs hh with hmem | ⟨hold, -⟩
    · exact hlive a ((hmade _ hmem).2 ha)
    · exact hrep.live h xs hold a ha
  ring h xs hh := by
    rcases hf h xs hh with hmem | ⟨hold, hdisjoint⟩
    · exact (hmade _ hmem).1
    · exact hframe.ring (hrep.ring h xs hold) hdisjoint
  apart h h' xs xs' hh hh' hne := by
    rcases hf h xs hh with hmem | ⟨hold, hdisjoint⟩
    · rcases hf h' xs' hh' with hmem' | ⟨-, hdisjoint'⟩
      · exact hapart _ hmem _ hmem' hne
      · exact fun a ha ha' => hdisjoint' ha' ((hmade _ hmem).2 ha)
    · rcases hf h' xs' hh' with hmem' | ⟨hold', -⟩
      · exact fun a ha ha' => hdisjoint ha ((hmade _ hmem').2 ha')
      · exact hrep.apart h h' xs xs' hold hold' hne

omit [DecidableEq α] in
/-- A node is on one list only. -/
theorem Represents.notMem {h' : α} {xs' : List α} (hrep : Represents m A)
    (hh : A.entries h = some xs) (hh' : A.entries h' = some xs') (hne : h' ≠ h) (ha : a ∈ h :: xs) :
    a ∉ h' :: xs' := fun ha' => hrep.apart h' h xs' xs hh' hh hne ha' ha

/-! ## Memory -/

/-- Memory that is given out holds no list. -/
theorem Represents.alloc (hrep : Represents m A) (hfree : A.live a = false) (next prev : α) :
    Represents (alloc m a next prev) (A.alloc a) := by
  have hother : ∀ b, A.live b = true → b ≠ a := by
    rintro b hb rfl
    exact Bool.false_ne_true (hfree.symm.trans hb)
  have hlive : ∀ b, A.live b = true → (A.alloc a).live b = true := fun b hb => by
    simp [ListTable.alloc, hother b hb, hb]
  refine ⟨fun b hb => ?_, fun h xs hh b hb => hlive b (hrep.live h xs hh b hb), fun h xs hh => ?_,
    hrep.apart⟩
  · by_cases hba : b = a
    · simp [Mapped, HyList.alloc, hba]
    · have hb' : A.live b = true := by simpa [ListTable.alloc, hba] using hb
      simpa [Mapped, HyList.alloc, hba] using hrep.mapped b hb'
  · refine (hrep.ring h xs hh).congr (fun b hb => ?_) fun b hb => ?_
    · exact Function.update_of_ne (hother b (hrep.live h xs hh b hb)) _ _
    · exact Function.update_of_ne (hother b (hrep.live h xs hh b hb)) _ _

omit [DecidableEq α] in
/-- A node that may be put in is on no list with another node. -/
theorem ListTable.Loose.notMem (ha : A.Loose a) (hh : A.entries h = some xs) (hne : h ≠ a) :
    a ∉ h :: xs := by
  rw [List.mem_cons, not_or]
  exact ⟨hne.symm, ha.2.1 h xs hh⟩

/-- Memory that is given back is on no list. -/
theorem Represents.free (hrep : Represents m A) (ha : A.Loose a) :
    Represents (free m a) (A.free a) := by
  have hold : ∀ h xs, (A.free a).entries h = some xs → A.entries h = some xs ∧ a ∉ h :: xs := by
    intro h xs hh
    by_cases hha : h = a
    · simp [ListTable.free, hha] at hh
    · have hh' : A.entries h = some xs := by simpa [ListTable.free, hha] using hh
      exact ⟨hh', ha.notMem hh' hha⟩
  refine ⟨fun b hb => ?_, fun h xs hh b hb => ?_, fun h xs hh => ?_, fun h h' xs xs' hh hh' => ?_⟩
  · by_cases hba : b = a
    · simp [ListTable.free, hba] at hb
    · have hb' : A.live b = true := by simpa [ListTable.free, hba] using hb
      simpa [Mapped, HyList.free, hba] using hrep.mapped b hb'
  · obtain ⟨hh, hnot⟩ := hold h xs hh
    simpa [ListTable.free, ne_of_mem_of_not_mem hb hnot] using hrep.live h xs hh b hb
  · obtain ⟨hh, hnot⟩ := hold h xs hh
    refine (hrep.ring h xs hh).congr (fun b hb => ?_) fun b hb => ?_
    · exact Function.update_of_ne (ne_of_mem_of_not_mem hb hnot) _ _
    · exact Function.update_of_ne (ne_of_mem_of_not_mem hb hnot) _ _
  · exact hrep.apart h h' xs xs' (hold h xs hh).1 (hold h' xs' hh').1

/-! ## One list -/

/-- **What a call leaves of the lists** when it makes one of one, and `x` is no longer a head. -/
theorem Represents.edit_one {touched : List α} {place : α → List α → List α} {x : α}
    (hrep : Represents m A) (hframe : Frame m m' touched) (hlive : ∀ a ∈ touched, A.live a = true)
    (hh : A.entries h = some xs)
    (hother : ∀ h' ys, A.entries h' = some ys → h' ≠ h → h' ≠ x →
      place h' ys = ys ∧ List.Disjoint (h' :: ys) touched)
    (hring : Ring m' (h :: place h xs)) (hsub : h :: place h xs ⊆ touched) :
    Represents m'
      { A with entries := fun h' => if h' = x then none else (A.entries h').map (place h') } := by
  refine hrep.edit [(h, place h xs)] hframe hlive ?_
    (List.forall_mem_singleton.mpr ⟨hring, hsub⟩) (by simp)
  intro h' ys hys
  split_ifs at hys with hx
  obtain ⟨zs, hzs, rfl⟩ := Option.map_eq_some_iff.mp hys
  by_cases hne : h' = h
  · subst hne
    cases hh.symm.trans hzs
    exact .inl List.mem_cons_self
  · obtain ⟨hsame, hdisjoint⟩ := hother h' zs hzs hne hx
    rw [hsame]
    exact .inr ⟨hzs, hdisjoint⟩

omit [DecidableEq α] in
/-- The ring of a list, read from one of its nodes. -/
theorem Represents.front {pre post : List α} (hrep : Represents m A) (hh : A.entries h = some xs)
    (hxs : h :: xs = pre ++ p :: post) : Ring m (p :: (post ++ pre)) :=
  Ring.rotate pre (p :: post) (hxs ▸ hrep.ring h xs hh)

/-- **`INIT_LIST_HEAD`**. -/
theorem Represents.init (hrep : Represents m A) (hlist : A.NoEntry a) :
    ∃ m', initListHead m a = some m' ∧ Represents m' (A.init a) := by
  obtain ⟨m', hrun, hring, hframe⟩ := initListHead_ring (hrep.mapped a hlist.1)
  refine ⟨m', hrun, hrep.edit [(a, [])] hframe (by simpa using hlist.1) ?_
    (by simpa using hring) (by simp)⟩
  intro h xs hh
  by_cases hha : h = a
  · subst hha
    have hxs : xs = [] := by simpa [eq_comm] using hh
    exact .inl (by simp [hxs])
  · have hh' : A.entries h = some xs := by simpa [hha] using hh
    refine .inr ⟨hh', ?_⟩
    rw [List.disjoint_singleton, List.mem_cons, not_or]
    exact ⟨Ne.symm hha, hlist.2 h xs hh'⟩

/-! ## Nodes put in -/

section Put

variable {pre post : List α}

omit [DecidableEq α] in
theorem perm_front (hxs : h :: xs = pre ++ p :: post) : (p :: (post ++ pre)).Perm (h :: xs) := by
  have hperm : (p :: post ++ pre).Perm (pre ++ p :: post) := List.perm_append_comm
  rwa [hxs]

omit [DecidableEq α] in
/-- Where a node is put in. -/
theorem ListTable.Loose.place (hnew : A.Loose new) (hp : A.OnList p) (hne : p ≠ new) :
    ∃ h xs pre post, A.entries h = some xs ∧ h :: xs = pre ++ p :: post ∧ new ∉ h :: xs := by
  obtain ⟨h, xs, hh, hmem⟩ := hp
  obtain ⟨pre, post, hxs⟩ := List.append_of_mem hmem
  refine ⟨h, xs, pre, post, hh, hxs, hnew.notMem hh ?_⟩
  -- the list of `new` has no entries
  rintro rfl
  have hnil : xs = [] := by simpa [hh] using hnew.2.2
  exact hne (by simpa [hnil] using hmem)

/-- **What a put leaves of the lists**: the nodes `ys` and a list become one list. -/
theorem Represents.put {place : α → List α → List α} {x : α} (hrep : Represents m A)
    (hh : A.entries h = some xs) (hxs : h :: xs = pre ++ p :: post)
    (hplace : ∀ h' zs, p ∉ h' :: zs → place h' zs = zs) (hlive : ∀ b ∈ ys, A.live b = true)
    (hys : ∀ h' zs, A.entries h' = some zs → h' ≠ h → h' ≠ x → List.Disjoint (h' :: zs) ys)
    (hframe : Frame m m' (ys ++ p :: (post ++ pre))) (hring : Ring m' (h :: place h xs))
    (hperm : (h :: place h xs).Perm (ys ++ p :: (post ++ pre))) :
    Represents m'
      { A with entries := fun h' => if h' = x then none else (A.entries h').map (place h') } := by
  have hfront : ∀ b, b ∈ p :: (post ++ pre) → b ∈ h :: xs := fun b => (perm_front hxs).mem_iff.mp
  refine hrep.edit_one hframe ?_ hh ?_ hring hperm.subset
  · intro b hb
    rcases List.mem_append.mp hb with hb | hb
    · exact hlive b hb
    · exact hrep.live h xs hh b (hfront b hb)
  · intro h' zs hzs hne hnx
    refine ⟨hplace h' zs (hrep.notMem hh hzs hne (hfront p List.mem_cons_self)), ?_⟩
    rw [List.disjoint_append_right]
    exact ⟨hys h' zs hzs hne hnx, fun b hb hb' => hrep.notMem hh hzs hne (hfront b hb') hb⟩

theorem ring_putNext (ys : List α) (hring : Ring m' (p :: ys ++ (post ++ pre)))
    (hxs : h :: xs = pre ++ p :: post) (hnodup : (h :: xs).Nodup) :
    Ring m' (h :: putNext ys p h xs) ∧
      (h :: putNext ys p h xs).Perm (ys ++ p :: (post ++ pre)) := by
  rw [cons_putNext ys hxs hnodup]
  constructor
  · simpa using Ring.rotate (p :: ys ++ post) pre (by simpa using hring)
  · have hperm : (pre ++ p :: (ys ++ post)).Perm (p :: (ys ++ post) ++ pre) :=
      List.perm_append_comm
    have hmiddle : (ys ++ p :: (post ++ pre)).Perm (p :: (ys ++ (post ++ pre))) :=
      List.perm_middle
    exact hperm.trans (by simpa using hmiddle.symm)

theorem ring_putPrev (ys : List α) (hring : Ring m' (p :: (post ++ pre) ++ ys))
    (hxs : h :: xs = pre ++ p :: post) (hnodup : (h :: xs).Nodup) :
    Ring m' (h :: putPrev ys p h xs) ∧
      (h :: putPrev ys p h xs).Perm (ys ++ p :: (post ++ pre)) := by
  obtain ⟨l, l', hput, hread⟩ := cons_putPrev ys hxs hnodup
  rw [hput]
  constructor
  · exact Ring.rotate l' l (hread ▸ hring)
  · have hperm : (l ++ l').Perm (p :: (post ++ pre) ++ ys) := hread ▸ List.perm_append_comm
    exact hperm.trans List.perm_append_comm

/-- **`list_add`**. -/
theorem Represents.add (hrep : Represents m A) (hnew : A.Loose new) (hp : A.OnList p)
    (hne : p ≠ new) : ∃ m', listAdd m new p = some m' ∧ Represents m' (A.add new p) := by
  obtain ⟨h, xs, pre, post, hh, hxs, hnot⟩ := hnew.place hp hne
  obtain ⟨m', hrun, hring, hframe⟩ := listAdd_ring (hrep.front hh hxs) (hrep.mapped new hnew.1)
    ((perm_front hxs).mem_iff.not.mpr hnot)
  obtain ⟨hring', hperm⟩ := ring_putNext [new] hring hxs (hrep.ring h xs hh).nodup
  refine ⟨m', hrun, hrep.put hh hxs (fun _ _ => putNext_of_notMem [new]) (by simpa using hnew.1)
    ?_ hframe hring' hperm⟩
  intro h' zs hzs _ hna
  exact List.disjoint_singleton.mpr (hnew.notMem hzs hna)

/-- **`list_add_tail`**. -/
theorem Represents.addTail (hrep : Represents m A) (hnew : A.Loose new) (hp : A.OnList p)
    (hne : p ≠ new) : ∃ m', listAddTail m new p = some m' ∧ Represents m' (A.addTail new p) := by
  obtain ⟨h, xs, pre, post, hh, hxs, hnot⟩ := hnew.place hp hne
  obtain ⟨m', hrun, hring, hframe⟩ := listAddTail_ring (hrep.front hh hxs)
    (hrep.mapped new hnew.1) ((perm_front hxs).mem_iff.not.mpr hnot)
  obtain ⟨hring', hperm⟩ := ring_putPrev [new] hring hxs (hrep.ring h xs hh).nodup
  refine ⟨m', hrun, hrep.put hh hxs (fun _ _ => putPrev_of_notMem [new]) (by simpa using hnew.1)
    ?_ hframe hring' hperm⟩
  intro h' zs hzs _ hna
  exact List.disjoint_singleton.mpr (hnew.notMem hzs hna)

end Put

/-! ## Nodes taken out -/

section Remove

/-- A node that is taken out may be put in. -/
theorem ListTable.Removable.loose_del (he : A.Removable entry) (hrep : Represents m A) :
    (A.del entry).Loose entry := by
  refine ⟨?_, fun h ys hh => ?_, by simp [ListTable.del]⟩
  · rcases he with ⟨h, xs, hh, hmem⟩ | hh
    · exact hrep.live h xs hh entry (List.mem_cons_of_mem _ hmem)
    · exact hrep.live entry [] hh entry List.mem_cons_self
  · simp only [ListTable.del] at hh
    split_ifs at hh
    obtain ⟨xs, hxs, rfl⟩ := Option.map_eq_some_iff.mp hh
    exact (List.nodup_cons.mp (hrep.ring h xs hxs).nodup).2.not_mem_erase

/-- The other nodes stay on their lists. -/
theorem ListTable.OnList.del (hp : A.OnList p) (hrep : Represents m A) (he : A.Removable entry)
    (hne : p ≠ entry) : (A.del entry).OnList p := by
  obtain ⟨h, xs, hh, hmem⟩ := hp
  have hhe : h ≠ entry := by
    rintro rfl
    rcases he with ⟨h', xs', hh', hmem'⟩ | hnil
    · -- a head is no entry
      by_cases heq : h' = h
      · subst heq
        exact (List.nodup_cons.mp (hrep.ring h' xs' hh').nodup).1 hmem'
      · exact hrep.notMem hh hh' heq List.mem_cons_self (List.mem_cons_of_mem _ hmem')
    · cases hh.symm.trans hnil
      exact hne (by simpa using hmem)
  refine ⟨h, xs.erase entry, by simp [ListTable.del, hhe, hh], ?_⟩
  rcases List.mem_cons.mp hmem with rfl | hmem
  · exact List.mem_cons_self
  · exact List.mem_cons_of_mem _ ((List.mem_erase_of_ne hne).mpr hmem)

/-- **`__list_del_entry`**. -/
theorem Represents.delEntry (hrep : Represents m A) (he : A.Removable entry) :
    ∃ m', listDelEntry m entry = some m' ∧ Represents m' (A.del entry) := by
  rcases he with ⟨h, xs, hh, hmem⟩ | hh
  · obtain ⟨pre, post, rfl⟩ := List.append_of_mem hmem
    have hring := hrep.ring h _ hh
    have herase : (pre ++ entry :: post).erase entry = pre ++ post :=
      SavedSuccessor.erase_append_cons (List.nodup_cons.mp hring.nodup).2
    -- the list is read from the node before the entry
    obtain ⟨pre', p, hpre⟩ : ∃ pre' p, h :: pre = pre' ++ [p] :=
      ⟨_, _, (List.dropLast_concat_getLast (List.cons_ne_nil h pre)).symm⟩
    have hxs : h :: (pre ++ entry :: post) = pre' ++ p :: (entry :: post) := by
      rw [← List.cons_append, hpre]
      simp
    have hxs' : h :: (pre ++ post) = pre' ++ p :: post := by
      rw [← List.cons_append, hpre]
      simp
    obtain ⟨m', hrun, hring', hframe⟩ := listDelEntry_ring (l := post ++ pre') (hrep.front hh hxs)
    have hmem' : ∀ b, b ∈ p :: entry :: (post ++ pre') → b ∈ h :: (pre ++ entry :: post) :=
      fun b => (perm_front hxs).mem_iff.mp
    refine ⟨m', hrun, hrep.edit_one hframe ?_ hh ?_ ?_ ?_⟩
    · exact fun b hb => hrep.live h _ hh b (hmem' b hb)
    · intro h' ys hys hne _
      have hnot := hrep.notMem hh hys hne (hmem' entry (by simp))
      refine ⟨List.erase_of_not_mem fun hmem => hnot (List.mem_cons_of_mem _ hmem), ?_⟩
      exact fun b hb hb' => hrep.notMem hh hys hne (hmem' b hb') hb
    · rw [herase, hxs']
      exact Ring.rotate (p :: post) pre' hring'
    · rw [herase, hxs']
      intro b hb
      simp only [List.mem_append, List.mem_cons] at hb ⊢
      tauto
  · obtain ⟨m', hrun, hring, hframe⟩ := listDelEntry_ring_singleton (hrep.ring entry [] hh)
    refine ⟨m', hrun, hrep.edit_one hframe ?_ hh ?_ hring (List.Subset.refl _)⟩
    · exact hrep.live entry [] hh
    · intro h' ys hys hne _
      have hnot := hrep.notMem hh hys hne List.mem_cons_self
      refine ⟨List.erase_of_not_mem fun hmem => hnot (List.mem_cons_of_mem _ hmem), ?_⟩
      exact List.disjoint_singleton.mpr hnot

omit [DecidableEq α] in
/-- A write of a node that is on no list. -/
theorem Represents.write (hrep : Represents m A) (hframe : Frame m m' [a]) (ha : A.Loose a)
    (hnone : A.entries a = none) : Represents m' A := by
  refine hrep.edit [] hframe (by simpa using ha.1) (fun h xs hh => .inr ⟨hh, ?_⟩)
    (by simp) (by simp)
  rw [List.disjoint_singleton]
  exact ha.notMem hh fun heq => by simp [← heq, hh] at hnone

/-- **`list_del`**. -/
theorem Represents.del (hrep : Represents m A) (he : A.Removable entry) (poison : ListPoison α) :
    ∃ m', listDel poison m entry = some m' ∧ Represents m' (A.del entry) := by
  have hloose := he.loose_del hrep
  have hnone : (A.del entry).entries entry = none := by simp [ListTable.del]
  obtain ⟨m₁, hrun, hrep₁⟩ := hrep.delEntry he
  obtain ⟨m₂, hnext, hframe₂⟩ :=
    exists_setNext (hrep₁.mapped entry hloose.1) poison.poison1
  have hrep₂ := hrep₁.write hframe₂ hloose hnone
  obtain ⟨m₃, hprev, hframe₃⟩ :=
    exists_setPrev (hrep₂.mapped entry hloose.1) poison.poison2
  refine ⟨m₃, ?_, hrep₂.write hframe₃ hloose hnone⟩
  rw [listDel, hrun, Option.bind_eq_bind, Option.bind_some, hnext, Option.bind_some, hprev]

omit [DecidableEq α] in
theorem ListTable.Loose.noEntry (ha : A.Loose a) : A.NoEntry a := ⟨ha.1, ha.2.1⟩

/-- **`list_del_init`**. -/
theorem Represents.delInit (hrep : Represents m A) (he : A.Removable entry) :
    ∃ m', listDelInit m entry = some m' ∧ Represents m' ((A.del entry).init entry) := by
  obtain ⟨m₁, hrun, hrep₁⟩ := hrep.delEntry he
  obtain ⟨m₂, hinit, hrep₂⟩ := hrep₁.init (he.loose_del hrep).noEntry
  exact ⟨m₂, by rw [listDelInit, hrun]; exact hinit, hrep₂⟩

/-- **`list_move`**. -/
theorem Represents.move (hrep : Represents m A) (he : A.Removable entry) (hp : A.OnList p)
    (hne : p ≠ entry) :
    ∃ m', listMove m entry p = some m' ∧ Represents m' ((A.del entry).add entry p) := by
  obtain ⟨m₁, hrun, hrep₁⟩ := hrep.delEntry he
  obtain ⟨m₂, hadd, hrep₂⟩ := hrep₁.add (he.loose_del hrep) (hp.del hrep he hne) hne
  exact ⟨m₂, by rw [listMove, hrun]; exact hadd, hrep₂⟩

/-- **`list_move_tail`**. -/
theorem Represents.moveTail (hrep : Represents m A) (he : A.Removable entry) (hp : A.OnList p)
    (hne : p ≠ entry) :
    ∃ m', listMoveTail m entry p = some m' ∧ Represents m' ((A.del entry).addTail entry p) := by
  obtain ⟨m₁, hrun, hrep₁⟩ := hrep.delEntry he
  obtain ⟨m₂, hadd, hrep₂⟩ := hrep₁.addTail (he.loose_del hrep) (hp.del hrep he hne) hne
  exact ⟨m₂, by rw [listMoveTail, hrun]; exact hadd, hrep₂⟩

end Remove

/-! ## Nodes in the place of others -/

section Replace

variable {pre post : List α}

omit [DecidableEq α] in
/-- A head is no entry. -/
theorem Represents.entries_eq_none (hrep : Represents m A) (hh : A.entries h = some xs)
    (ha : a ∈ xs) : A.entries a = none := by
  cases hys : A.entries a with
  | none => rfl
  | some ys =>
    exfalso
    by_cases hah : a = h
    · exact (List.nodup_cons.mp (hrep.ring h xs hh).nodup).1 (hah ▸ ha)
    · exact hrep.notMem hh hys hah (List.mem_cons_of_mem _ ha) List.mem_cons_self

/-- **`list_replace`**: of a head, with its list, or of an entry. -/
theorem Represents.replace (hrep : Represents m A) (hnew : A.Loose new) (hp : A.OnList p)
    (hne : p ≠ new) : ∃ m', listReplace m p new = some m' ∧ Represents m' (A.replace p new) := by
  obtain ⟨h, xs, pre, post, hh, hxs, hnot⟩ := hnew.place hp hne
  obtain ⟨m', hrun, hring, hframe⟩ := listReplace_ring (hrep.front hh hxs)
    (hrep.mapped new hnew.1) ((perm_front hxs).mem_iff.not.mpr hnot)
  have hfront : ∀ b, b ∈ p :: (post ++ pre) → b ∈ h :: xs := fun b => (perm_front hxs).mem_iff.mp
  have hlive : ∀ b ∈ new :: p :: (post ++ pre), A.live b = true := by
    rintro b (- | ⟨_, hb⟩)
    · exact hnew.1
    · exact hrep.live h xs hh b (hfront b hb)
  have hother : ∀ h' zs, A.entries h' = some zs → h' ≠ h → h' ≠ new →
      spread p [new] zs = zs ∧ List.Disjoint (h' :: zs) (new :: p :: (post ++ pre)) := by
    intro h' zs hzs hneh hnen
    have hpzs := hrep.notMem hh hzs hneh (hfront p List.mem_cons_self)
    refine ⟨spread_of_notMem _ fun hmem => hpzs (List.mem_cons_of_mem _ hmem), ?_⟩
    rw [List.disjoint_cons_right]
    exact ⟨hnew.notMem hzs hnen, fun b hb hb' => hrep.notMem hh hzs hneh (hfront b hb') hb⟩
  refine ⟨m', hrun, ?_⟩
  by_cases hhp : h = p
  · -- the new node becomes the head of the list
    subst hhp
    obtain ⟨rfl, rfl⟩ : pre = [] ∧ xs = post := by
      cases pre with
      | nil => exact ⟨rfl, (List.cons.inj hxs).2⟩
      | cons b pre =>
        obtain ⟨rfl, rfl⟩ := List.cons.inj hxs
        exact absurd (hrep.ring h _ hh).nodup (by simp)
    rw [List.append_nil] at hring hother hframe hlive
    refine hrep.edit [(new, xs)] hframe hlive ?_
      (List.forall_mem_singleton.mpr ⟨hring, ?_⟩) (by simp)
    · intro h' zs hzs
      split_ifs at hzs with hp' hn'
      · cases hh.symm.trans hzs
        exact .inl (by simp [hn'])
      · obtain ⟨ys, hys, rfl⟩ := Option.map_eq_some_iff.mp hzs
        rw [(hother h' ys hys hp' hn').1]
        exact .inr ⟨hys, (hother h' ys hys hp' hn').2⟩
    · exact List.cons_subset_cons _ (List.subset_cons_self _ _)
  · -- the new node becomes an entry
    have hpx : p ∈ xs := List.mem_of_ne_of_mem (Ne.symm hhp) (hfront p List.mem_cons_self)
    obtain ⟨pre', rfl⟩ : ∃ pre', pre = h :: pre' := by
      cases pre with
      | nil => exact absurd (List.cons.inj hxs).1 hhp
      | cons b pre => exact ⟨pre, by rw [(List.cons.inj hxs).1]⟩
    obtain rfl : xs = pre' ++ p :: post := (List.cons.inj hxs).2
    have hspread : h :: spread p [new] (pre' ++ p :: post) = h :: pre' ++ new :: post := by
      rw [spread_append_cons _ (List.nodup_cons.mp (hrep.ring h _ hh).nodup).2]
      simp
    refine hrep.edit [(h, spread p [new] (pre' ++ p :: post))] hframe hlive ?_
      (List.forall_mem_singleton.mpr ⟨?_, ?_⟩) (by simp)
    · intro h' zs hzs
      split_ifs at hzs with hp' hn'
      · exact absurd (hrep.entries_eq_none hh hpx) (by simp [hzs])
      · obtain ⟨ys, hys, rfl⟩ := Option.map_eq_some_iff.mp hzs
        by_cases hneh : h' = h
        · subst hneh
          cases hh.symm.trans hys
          exact .inl List.mem_cons_self
        · rw [(hother h' ys hys hneh hn').1]
          exact .inr ⟨hys, (hother h' ys hys hneh hn').2⟩
    · rw [hspread]
      exact Ring.rotate (new :: post) (h :: pre') hring
    · rw [hspread]
      intro b hb
      simp only [List.mem_append, List.mem_cons] at hb ⊢
      tauto

/-- **`list_replace_init`**. -/
theorem Represents.replaceInit (hrep : Represents m A) (hnew : A.Loose new) (hp : A.OnList p)
    (hne : p ≠ new) :
    ∃ m', listReplaceInit m p new = some m' ∧ Represents m' ((A.replace p new).init p) := by
  obtain ⟨m₁, hrun, hrep₁⟩ := hrep.replace hnew hp hne
  have hnone : (A.replace p new).NoEntry p := by
    obtain ⟨h, xs, hh, hmem⟩ := hp
    refine ⟨hrep.live h xs hh p hmem, fun h' zs hzs => ?_⟩
    simp only [ListTable.replace] at hzs
    split_ifs at hzs
    · exact (List.nodup_cons.mp (hrep.ring p zs hzs).nodup).1
    · obtain ⟨ys, -, rfl⟩ := Option.map_eq_some_iff.mp hzs
      simp [mem_spread, hne]
  obtain ⟨m₂, hinit, hrep₂⟩ := hrep₁.init hnone
  exact ⟨m₂, by rw [listReplaceInit, hrun]; exact hinit, hrep₂⟩

end Replace

/-! ## Two lists -/

section Splice

variable {list : α}

omit [DecidableEq α] in
theorem ListTable.entriesOf_eq (hh : A.entries h = some xs) : A.entriesOf h = xs := by
  rw [ListTable.entriesOf, hh]
  rfl

omit [DecidableEq α] in
/-- The place of a splice is on another list. -/
theorem Represents.splice_place (hrep : Represents m A) (hlist : A.entries list = some ys)
    (hp : A.OnList p) (hnot : p ∉ list :: ys) :
    ∃ h xs pre post, A.entries h = some xs ∧ h :: xs = pre ++ p :: post ∧ list ≠ h ∧
      List.Disjoint (p :: (post ++ pre)) (list :: ys) := by
  obtain ⟨h, xs, hh, hmem⟩ := hp
  obtain ⟨pre, post, hxs⟩ := List.append_of_mem hmem
  have hne : h ≠ list := by
    rintro rfl
    cases hh.symm.trans hlist
    exact hnot hmem
  exact ⟨h, xs, pre, post, hh, hxs, hne.symm, fun b hb =>
    hrep.apart h list xs ys hh hlist hne ((perm_front hxs).mem_iff.mp hb)⟩

/-- **`list_splice`**, without its test. -/
theorem Represents.spliceBetween (hrep : Represents m A) (hlist : A.entries list = some ys)
    (hys : ys ≠ []) (hp : A.OnList p) (hnot : p ∉ list :: ys) :
    ∃ next m', m.next p = some next ∧ listSpliceBetween m list p next = some m' ∧
      Represents m' (A.splice list p) := by
  obtain ⟨h, xs, pre, post, hh, hxs, hne, hdisjoint⟩ := hrep.splice_place hlist hp hnot
  have hfront := hrep.front hh hxs
  obtain ⟨m', hrun, hring, hframe⟩ :=
    listSpliceBetween_ring_next hfront (hrep.ring list ys hlist) hys hdisjoint
  obtain ⟨hring', hperm⟩ := ring_putNext ys hring hxs (hrep.ring h xs hh).nodup
  have hput := hrep.put (x := list) hh hxs (fun _ _ => putNext_of_notMem ys)
    (fun b hb => hrep.live list ys hlist b (List.mem_cons_of_mem _ hb))
    (fun h' zs hzs _ hnl b hb hb' =>
      hrep.notMem hlist hzs hnl (List.mem_cons_of_mem _ hb') hb) hframe hring' hperm
  refine ⟨_, m', hfront.next_eq, hrun, ?_⟩
  rw [ListTable.splice]
  simpa [hlist, ListTable.leftBehind, hys] using hput

/-- **`list_splice_tail`**, without its test. -/
theorem Represents.spliceTailBetween (hrep : Represents m A) (hlist : A.entries list = some ys)
    (hys : ys ≠ []) (hp : A.OnList p) (hnot : p ∉ list :: ys) :
    ∃ prev m', m.prev p = some prev ∧ listSpliceBetween m list prev p = some m' ∧
      Represents m' (A.spliceTail list p) := by
  obtain ⟨h, xs, pre, post, hh, hxs, hne, hdisjoint⟩ := hrep.splice_place hlist hp hnot
  have hfront := hrep.front hh hxs
  obtain ⟨m', hrun, hring, hframe⟩ :=
    listSpliceBetween_ring_prev hfront (hrep.ring list ys hlist) hys hdisjoint
  obtain ⟨hring', hperm⟩ := ring_putPrev ys hring hxs (hrep.ring h xs hh).nodup
  have hput := hrep.put (x := list) hh hxs (fun _ _ => putPrev_of_notMem ys)
    (fun b hb => hrep.live list ys hlist b (List.mem_cons_of_mem _ hb))
    (fun h' zs hzs _ hnl b hb hb' =>
      hrep.notMem hlist hzs hnl (List.mem_cons_of_mem _ hb') hb) hframe hring' hperm
  refine ⟨_, m', hfront.prev_eq, hrun, ?_⟩
  rw [ListTable.spliceTail]
  simpa [hlist, ListTable.leftBehind, hys] using hput

/-- Nothing is put in when there are no entries. -/
theorem ListTable.splice_nil (hlist : A.entries list = some []) (p : α) : A.splice list p = A := by
  refine ListTable.ext rfl (funext fun h => ?_)
  by_cases hh : h = list
  · simp [ListTable.splice, hh, hlist, ListTable.leftBehind]
  · simp [ListTable.splice, hh, hlist, putNext_nil]

theorem ListTable.spliceTail_nil (hlist : A.entries list = some []) (p : α) :
    A.spliceTail list p = A := by
  refine ListTable.ext rfl (funext fun h => ?_)
  by_cases hh : h = list
  · simp [ListTable.spliceTail, hh, hlist, ListTable.leftBehind]
  · simp [ListTable.spliceTail, hh, hlist, putPrev_nil]

theorem ListTable.init_self (hlist : A.entries list = some []) : A.init list = A := by
  refine ListTable.ext rfl ?_
  rw [ListTable.init, ← hlist, Function.update_eq_self]

/-- **`list_splice`**. -/
theorem Represents.splice (hrep : Represents m A) (hlist : A.entries list = some ys)
    (hp : A.OnList p) (hnot : p ∉ list :: ys) :
    ∃ m', listSplice m list p = some m' ∧ Represents m' (A.splice list p) := by
  have hempty := listEmpty_ring (hrep.ring list ys hlist)
  by_cases hys : ys = []
  · subst hys
    rw [ListTable.splice_nil hlist]
    exact ⟨m, by rw [listSplice, hempty]; rfl, hrep⟩
  · obtain ⟨next, m', hnext, hrun, hrep'⟩ := hrep.spliceBetween hlist hys hp hnot
    have hfull : ys.isEmpty = false := by simpa using hys
    exact ⟨m', by rw [listSplice, hempty, hfull, hnext]; exact hrun, hrep'⟩

/-- **`list_splice_tail`**. -/
theorem Represents.spliceTail (hrep : Represents m A) (hlist : A.entries list = some ys)
    (hp : A.OnList p) (hnot : p ∉ list :: ys) :
    ∃ m', listSpliceTail m list p = some m' ∧ Represents m' (A.spliceTail list p) := by
  have hempty := listEmpty_ring (hrep.ring list ys hlist)
  by_cases hys : ys = []
  · subst hys
    rw [ListTable.spliceTail_nil hlist]
    exact ⟨m, by rw [listSpliceTail, hempty]; rfl, hrep⟩
  · obtain ⟨prev, m', hprev, hrun, hrep'⟩ := hrep.spliceTailBetween hlist hys hp hnot
    have hfull : ys.isEmpty = false := by simpa using hys
    exact ⟨m', by rw [listSpliceTail, hempty, hfull, hprev]; exact hrun, hrep'⟩

/-- A head whose entries are taken is no entry. -/
theorem Represents.noEntry_splice (hrep : Represents m A) (hlist : A.entries list = some ys)
    (place : α → List α → List α) (hplace : ∀ h zs, ∀ b ∈ place h zs, b ∈ zs ∨ b ∈ ys)
    {B : ListTable α} (hlive : B.live = A.live) (hB : ∀ h, h ≠ list →
      B.entries h = (A.entries h).map (place h)) (hleft : B.entries list = none) :
    B.NoEntry list := by
  have hself := (List.nodup_cons.mp (hrep.ring list ys hlist).nodup).1
  refine ⟨hlive ▸ hrep.live list ys hlist list List.mem_cons_self, fun h zs hzs hmem => ?_⟩
  by_cases hh : h = list
  · simp [hh, hleft] at hzs
  · rw [hB h hh] at hzs
    obtain ⟨xs, hxs, rfl⟩ := Option.map_eq_some_iff.mp hzs
    rcases hplace h xs list hmem with hmem | hmem
    · exact hrep.notMem hlist hxs hh List.mem_cons_self (List.mem_cons_of_mem _ hmem)
    · exact hself hmem

/-- **`list_splice_init`**. -/
theorem Represents.spliceInit (hrep : Represents m A) (hlist : A.entries list = some ys)
    (hp : A.OnList p) (hnot : p ∉ list :: ys) :
    ∃ m', listSpliceInit m list p = some m' ∧ Represents m' ((A.splice list p).init list) := by
  have hempty := listEmpty_ring (hrep.ring list ys hlist)
  by_cases hys : ys = []
  · subst hys
    rw [ListTable.splice_nil hlist, ListTable.init_self hlist]
    exact ⟨m, by rw [listSpliceInit, hempty]; rfl, hrep⟩
  · obtain ⟨next, m₁, hnext, hrun, hrep₁⟩ := hrep.spliceBetween hlist hys hp hnot
    have hfull : ys.isEmpty = false := by simpa using hys
    have hnone : (A.splice list p).NoEntry list :=
      hrep.noEntry_splice hlist (putNext ys p) (fun _ _ _ => mem_of_mem_putNext) rfl
        (fun h hh => by simp [ListTable.splice, hh, hlist])
        (by simp [ListTable.splice, hlist, ListTable.leftBehind, hys])
    obtain ⟨m₂, hinit, hrep₂⟩ := hrep₁.init hnone
    refine ⟨m₂, ?_, hrep₂⟩
    rw [listSpliceInit, hempty, hfull, hnext]
    simpa [hrun] using hinit

/-- **`list_splice_tail_init`**. -/
theorem Represents.spliceTailInit (hrep : Represents m A) (hlist : A.entries list = some ys)
    (hp : A.OnList p) (hnot : p ∉ list :: ys) :
    ∃ m', listSpliceTailInit m list p = some m' ∧
      Represents m' ((A.spliceTail list p).init list) := by
  have hempty := listEmpty_ring (hrep.ring list ys hlist)
  by_cases hys : ys = []
  · subst hys
    rw [ListTable.spliceTail_nil hlist, ListTable.init_self hlist]
    exact ⟨m, by rw [listSpliceTailInit, hempty]; rfl, hrep⟩
  · obtain ⟨prev, m₁, hprev, hrun, hrep₁⟩ := hrep.spliceTailBetween hlist hys hp hnot
    have hfull : ys.isEmpty = false := by simpa using hys
    have hnone : (A.spliceTail list p).NoEntry list :=
      hrep.noEntry_splice hlist (putPrev ys p) (fun _ _ _ => mem_of_mem_putPrev) rfl
        (fun h hh => by simp [ListTable.spliceTail, hh, hlist])
        (by simp [ListTable.spliceTail, hlist, ListTable.leftBehind, hys])
    obtain ⟨m₂, hinit, hrep₂⟩ := hrep₁.init hnone
    refine ⟨m₂, ?_, hrep₂⟩
    rw [listSpliceTailInit, hempty, hfull, hprev]
    simpa [hrun] using hinit

end Splice

section Cut

variable {list : α} {l r : List α}

/-- **`list_rotate_left`**. -/
theorem Represents.rotateLeft (hrep : Represents m A) (hh : A.entries h = some xs) :
    ∃ m', listRotateLeft m h = some m' ∧ Represents m' (A.rotateLeft h) := by
  have hempty := listEmpty_ring (hrep.ring h xs hh)
  cases xs with
  | nil =>
    have hsame : A.rotateLeft h = A := by
      refine ListTable.ext rfl ?_
      rw [ListTable.rotateLeft, hh]
      exact (congrArg _ hh.symm).trans (Function.update_eq_self h A.entries)
    rw [hsame]
    exact ⟨m, by rw [listRotateLeft, hempty]; rfl, hrep⟩
  | cons x xs =>
    have hring := hrep.ring h _ hh
    have hx : x ∉ xs := (List.nodup_cons.mp (List.nodup_cons.mp hring.nodup).2).1
    have hne : h ≠ x := fun heq => (List.nodup_cons.mp hring.nodup).1 (by simp [heq])
    have hfirst : A.Removable x := .inl ⟨h, _, hh, List.mem_cons_self⟩
    have hhead : A.OnList h := ⟨h, _, hh, List.mem_cons_self⟩
    obtain ⟨m', hrun, hrep'⟩ := hrep.moveTail hfirst hhead hne
    have hsame : (A.del x).addTail x h = A.rotateLeft h := by
      refine ListTable.ext rfl (funext fun h' => ?_)
      by_cases hhx : h' = x
      · subst hhx
        simp [ListTable.rotateLeft, ListTable.addTail, Ne.symm hne,
          hrep.entries_eq_none hh List.mem_cons_self]
      · by_cases hh' : h' = h
        · subst hh'
          simp [ListTable.rotateLeft, ListTable.addTail, ListTable.del, hhx, hh, putPrev]
        · -- the other lists have neither the entry nor the head
          cases hzs : A.entries h' with
          | none => simp [ListTable.rotateLeft, ListTable.addTail, ListTable.del, hhx, hh', hzs]
          | some zs =>
            have hnotx :=
              hrep.notMem hh hzs hh' (List.mem_cons_of_mem h (List.mem_cons_self (a := x)))
            have hnoth := hrep.notMem hh hzs hh' List.mem_cons_self
            have herase : zs.erase x = zs :=
              List.erase_of_not_mem fun hmem => hnotx (List.mem_cons_of_mem _ hmem)
            simp [ListTable.rotateLeft, ListTable.addTail, ListTable.del, hhx, hh', hzs, herase,
              putPrev_of_notMem [x] hnoth]
    rw [← hsame]
    refine ⟨m', ?_, hrep'⟩
    rw [listRotateLeft, hempty, hring.next_eq]
    exact hrun

theorem takeWhile_append_cons (he : entry ∉ l) :
    (l ++ entry :: r).takeWhile (· ≠ entry) = l ∧
      ((l ++ entry :: r).dropWhile (· ≠ entry)).tail = r := by
  induction l with
  | nil => simp
  | cons x l ih =>
    rw [List.mem_cons, not_or] at he
    simpa [Ne.symm he.1] using ih he.2

/-- **`list_cut_position`**, without its tests. -/
theorem Represents.cutBetween (hrep : Represents m A) (hh : A.entries h = some (l ++ entry :: r))
    (hlist : A.NoEntry list) (hne : list ≠ h) :
    ∃ m', listCutBetween m list h entry = some m' ∧
      Represents m'
        { A with
          entries :=
            Function.update (Function.update A.entries list (some (l ++ [entry]))) h (some r) } := by
  have hring := hrep.ring h _ hh
  have hnot : list ∉ h :: (l ++ entry :: r) := by
    rw [List.mem_cons, not_or]
    exact ⟨hne, hlist.2 h _ hh⟩
  obtain ⟨m', hrun, hleft, hright, hframe⟩ :=
    listCutBetween_ring hring (hrep.mapped list hlist.1) hnot
  refine ⟨m', hrun, hrep.edit [(list, l ++ [entry]), (h, r)] hframe ?_ ?_ ?_ ?_⟩
  · rintro b (- | ⟨_, hb⟩)
    · exact hlist.1
    · exact hrep.live h _ hh b hb
  · intro h' zs hzs
    by_cases hh' : h' = h
    · subst hh'
      obtain rfl : r = zs := by simpa using hzs
      exact .inl (by simp)
    · by_cases hl : h' = list
      · subst hl
        obtain rfl : l ++ [entry] = zs := by simpa [hh'] using hzs
        exact .inl (by simp)
      · have hold : A.entries h' = some zs := by simpa [hh', hl] using hzs
        refine .inr ⟨hold, ?_⟩
        rw [List.disjoint_cons_right, List.mem_cons, not_or]
        exact ⟨⟨Ne.symm hl, hlist.2 h' zs hold⟩, fun b hb hb' => hrep.notMem hh hold hh' hb' hb⟩
  · rintro t (- | ⟨_, ht⟩)
    · refine ⟨hleft, fun b hb => ?_⟩
      simp only [List.mem_cons, List.mem_append, List.not_mem_nil, or_false] at hb ⊢
      tauto
    · obtain rfl := List.mem_singleton.mp ht
      refine ⟨hright, fun b hb => ?_⟩
      simp only [List.mem_cons, List.mem_append] at hb ⊢
      tauto
  · -- the two parts have no nodes in common
    have hapart : List.Disjoint (list :: (l ++ [entry])) (h :: r) := by
      have hnodup := hring.nodup
      simp only [List.nodup_cons, List.nodup_append, List.mem_append, List.mem_cons] at hnodup hnot
      intro b hb hb'
      simp only [List.mem_cons, List.mem_append, List.not_mem_nil, or_false] at hb hb'
      grind
    rintro t (- | ⟨_, ht⟩) t' (- | ⟨_, ht'⟩) hne'
    · exact absurd rfl hne'
    · obtain rfl := List.mem_singleton.mp ht'
      exact hapart
    · obtain rfl := List.mem_singleton.mp ht
      exact fun b hb hb' => hapart hb' hb
    · obtain rfl := List.mem_singleton.mp ht
      obtain rfl := List.mem_singleton.mp ht'
      exact absurd rfl hne'

/-- **`list_cut_position`**. -/
theorem Represents.cutPosition (hrep : Represents m A) (hh : A.entries h = some xs)
    (hlist : A.NoEntry list) (hne : list ≠ h) (he : entry ∈ h :: xs ∨ xs.length ≤ 1) :
    ∃ m', listCutPosition m list h entry = some m' ∧
      Represents m' (A.cutPosition list h entry) := by
  have hring := hrep.ring h xs hh
  by_cases hxs : xs = []
  · subst hxs
    have hsame : A.cutPosition list h entry = A := by simp [ListTable.cutPosition, hh]
    rw [hsame]
    exact ⟨m, by rw [listCutPosition, listEmpty_ring hring]; rfl, hrep⟩
  rw [listCutPosition_ring hring hxs]
  by_cases hoff : xs.length = 1 ∧ entry ∉ h :: xs
  · -- a list with one entry is not cut at another node
    have hsame : A.cutPosition list h entry = A := by simp [ListTable.cutPosition, hh, hoff]
    obtain ⟨x, rfl⟩ := List.length_eq_one_iff.mp hoff.1
    have hnot : h ≠ entry ∧ x ≠ entry := by simpa [not_or, eq_comm] using hoff.2
    rw [hsame, if_pos ⟨rfl, hnot.2, hnot.1⟩]
    exact ⟨m, rfl, hrep⟩
  · have hmem : entry ∈ h :: xs := he.elim id fun hlen => not_not.mp fun hn => hoff
      ⟨Nat.le_antisymm hlen (List.length_pos_iff.mpr hxs), hn⟩
    have hgo : ¬ (xs.length = 1 ∧ xs.headD h ≠ entry ∧ h ≠ entry) := by
      rintro ⟨hlen, hx, hhe⟩
      obtain ⟨x, rfl⟩ := List.length_eq_one_iff.mp hlen
      have hnot : entry ≠ h ∧ entry ≠ x := ⟨Ne.symm hhe, Ne.symm hx⟩
      exact hoff ⟨rfl, by simpa [not_or] using hnot⟩
    have hcut : ¬ (xs = [] ∨ xs.length = 1 ∧ entry ∉ h :: xs) := not_or.mpr ⟨hxs, hoff⟩
    rw [if_neg hgo]
    by_cases heh : entry = h
    · have hsame : A.cutPosition list h entry = A.init list := by
        rw [ListTable.cutPosition, hh, Option.getD_some, if_neg hcut, if_pos heh]
      rw [if_pos heh, hsame]
      exact hrep.init hlist
    · obtain ⟨l, r, rfl⟩ := List.append_of_mem (List.mem_of_ne_of_mem heh hmem)
      have hnodup := (List.nodup_cons.mp hring.nodup).2
      obtain ⟨htake, hdrop⟩ := takeWhile_append_cons (l := l) (r := r) fun hel =>
        (List.nodup_append'.mp hnodup).2.2 hel List.mem_cons_self
      have hsame : A.cutPosition list h entry = ⟨A.live,
          Function.update (Function.update A.entries list (some (l ++ [entry]))) h (some r)⟩ := by
        rw [ListTable.cutPosition, hh, Option.getD_some, if_neg hcut, if_neg heh, htake, hdrop]
      rw [if_neg heh, hsame]
      exact hrep.cutBetween hh hlist hne

end Cut

/-! ## Every call -/

omit [DecidableEq α] in
theorem represents_empty : Represents ⟨fun _ => none, fun _ => none⟩ (ListTable.empty α) := by
  constructor <;> simp [ListTable.empty]

omit [DecidableEq α] in
/-- A call that shows nothing. -/
theorem step_done {A' : ListTable α} {call : Option (Cells α)}
    (h : ∃ m', call = some m' ∧ Represents m' A') :
    ∃ (A'' : ListTable α) (m' : Cells α) (out : ListOut α), some (A', .done) = some (A'', out) ∧
      call.map (fun m => (m, .done)) = some (m', out) ∧ Represents m' A'' := by
  obtain ⟨m', rfl, hrep⟩ := h
  exact ⟨A', m', .done, rfl, rfl, hrep⟩

omit [DecidableEq α] in
/-- A call that leaves the memory as it is. -/
theorem step_read {β : Type} {out : β → ListOut α} {call : Option β} {b : β}
    (hrep : Represents m A) (h : call = some b) :
    ∃ A' m' o, some (A, out b) = some (A', o) ∧ call.map (fun b => (m, out b)) = some (m', o) ∧
      Represents m' A' := by
  refine ⟨A, m, out b, rfl, ?_, hrep⟩
  rw [h, Option.map_some]

/-- **Every allowed call** succeeds, shows what it shows of the lists, and keeps them. -/
theorem Represents.step {op : ListOp α} (poison : ListPoison α) (hrep : Represents m A)
    (hop : Allowed A op) :
    ∃ A' m' out, listsStep A op = some (A', out) ∧ ringStep poison m op = some (m', out) ∧
      Represents m' A' := by
  -- the entries of a list whose head is given
  have hentries : ∀ h, (A.entries h).isSome → A.entries h = some (A.entriesOf h) := by
    intro h hh
    obtain ⟨xs, hxs⟩ := Option.isSome_iff_exists.mp hh
    rw [ListTable.entriesOf_eq hxs, hxs]
  have hring : ∀ h, (A.entries h).isSome → Ring m (h :: A.entriesOf h) := fun h hh =>
    hrep.ring h _ (hentries h hh)
  cases op with
  | alloc a next prev => exact ⟨_, _, _, rfl, rfl, hrep.alloc hop next prev⟩
  | free a => exact ⟨_, _, _, rfl, rfl, hrep.free hop⟩
  | init list => exact step_done (hrep.init hop)
  | add new head => exact step_done (hrep.add hop.1 hop.2.1 hop.2.2)
  | addTail new head => exact step_done (hrep.addTail hop.1 hop.2.1 hop.2.2)
  | del entry => exact step_done (hrep.del hop poison)
  | delInit entry => exact step_done (hrep.delInit hop)
  | replace old new => exact step_done (hrep.replace hop.1 hop.2.1 hop.2.2)
  | replaceInit old new => exact step_done (hrep.replaceInit hop.1 hop.2.1 hop.2.2)
  | move list head => exact step_done (hrep.move hop.1 hop.2.1 hop.2.2)
  | moveTail list head => exact step_done (hrep.moveTail hop.1 hop.2.1 hop.2.2)
  | rotateLeft head => exact step_done (hrep.rotateLeft (hentries head hop))
  | cutPosition list head entry =>
    exact step_done (hrep.cutPosition (hentries head hop.1) hop.2.1 hop.2.2.1 hop.2.2.2)
  | splice list head => exact step_done (hrep.splice (hentries list hop.1) hop.2.1 hop.2.2)
  | spliceTail list head =>
    exact step_done (hrep.spliceTail (hentries list hop.1) hop.2.1 hop.2.2)
  | spliceInit list head =>
    exact step_done (hrep.spliceInit (hentries list hop.1) hop.2.1 hop.2.2)
  | spliceTailInit list head =>
    exact step_done (hrep.spliceTailInit (hentries list hop.1) hop.2.1 hop.2.2)
  | isLast list head => exact step_read hrep (listIsLast_ring (hring head hop.1) hop.2)
  | empty head => exact step_read hrep (listEmpty_ring (hring head hop))
  | emptyCareful head => exact step_read hrep (listEmptyCareful_ring (hring head hop))
  | isSingular head => exact step_read hrep (listIsSingular_ring (hring head hop))
  | forEach fuel head => exact step_read hrep (listForEach_ring (hring head hop.1) hop.2)
  | forEachPrev fuel head =>
    exact step_read hrep (listForEachPrev_ring (hring head hop.1) hop.2)

/-- **The lists are kept**: in every run of allowed calls no call uses an address without a node,
each shows what it shows of the lists, and every list is a ring of its entries. -/
theorem lists_kept (poison : ListPoison α) {ops : List (ListOp α)}
    (hops : EachStep listsStep Allowed (ListTable.empty α) ops) :
    ∃ A m outs, run listsStep (ListTable.empty α) ops = some (A, outs) ∧
      run (ringStep poison) ⟨fun _ => none, fun _ => none⟩ ops = some (m, outs) ∧
      Represents m A := by
  have hstep : ∀ (A : ListTable α) (m : Cells α) (op : ListOp α), Represents m A → True →
      Allowed A op → ∃ A' m' out, listsStep A op = some (A', out) ∧
        ringStep poison m op = some (m', out) ∧ Represents m' A' :=
    fun _ _ _ hrep _ hop => hrep.step poison hop
  exact run_simulation_of_eachStep (fun A m => Represents m A) hstep represents_empty
    (fun _ _ => trivial) hops

/-- Two lists of which the second is joined to the first, cut again, and turned. -/
def listOps : List (ListOp (Fin 5)) :=
  [.alloc 0 0 0, .alloc 1 0 0, .alloc 2 0 0, .alloc 3 0 0, .alloc 4 0 0, .init 0, .init 1,
    .addTail 2 0, .add 3 1, .addTail 4 1, .spliceTailInit 1 0, .cutPosition 1 0 3, .rotateLeft 1,
    .moveTail 4 1, .del 3, .forEachPrev 2 1]

theorem lists_kept_two_lists :
    ∃ A m outs, run listsStep (ListTable.empty (Fin 5)) listOps = some (A, outs) ∧
      run (ringStep ⟨0, 0⟩) ⟨fun _ => none, fun _ => none⟩ listOps = some (m, outs) ∧
      Represents m A :=
  lists_kept ⟨0, 0⟩ (by decide +kernel)

end HyUtils.HyList
