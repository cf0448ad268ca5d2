import HyUtils.Foundation.Run
import HyUtils.Hash.Map
import HyUtils.Hash.Pointers

/-!
# The pointers of the hash table hold its chains

The memory of a table has a list of nodes for each bucket, an item around each node, and a buffer
for each value; nothing else is allocated. Every call keeps this, and does to the pointers what it
does to the chains.

## Main definitions

* `PointerTable.itemAt`: the item at an address, with its value
* `Models`: the memory holds the chains of a table, and nothing else

## Main results

* `pointers_refine_chains`: the pointers do what the chains do, in every run
* `hash_destroy_frees_all`: `UtilsHashDestroy` gives back all that is left after any run
-/

namespace HyUtils.Hash

open Hanging HyList Runs HashContext

namespace PointerTable

/-- The buffer of the item at an address. -/
def valAt (p : PointerTable) (a : Addr) : Option Addr := (p.items a).bind ItemTag.val

/-- The item at an address, with its value. -/
def itemAt (p : PointerTable) (a : Addr) : Option Item := do
  let item ← p.items a
  match item.val with
  | none => some ⟨item.keyHash, none⟩
  | some v => (p.vals v).map fun buf => ⟨item.keyHash, some buf⟩

theorem itemAt_congr {p p' : PointerTable} {a : Addr} (hitem : p'.items a = p.items a)
    (hval : ∀ v, p.valAt a = some v → p'.vals v = p.vals v) : p'.itemAt a = p.itemAt a := by
  rw [itemAt, itemAt, hitem]
  cases hitem' : p.items a with
  | none => rfl
  | some item =>
    simp only [Option.bind_eq_bind, Option.bind_some]
    cases hv : item.val with
    | none => rfl
    | some v =>
      dsimp only
      rw [hval v (by rw [valAt, hitem', Option.bind_some, hv])]

theorem itemAt_eq_some {p : PointerTable} {a : Addr} {item : Item}
    (h : p.itemAt a = some item) :
    ∃ tag, p.items a = some tag ∧ tag.keyHash = item.keyHash ∧
      item.val = tag.val.bind p.vals ∧ (tag.val.isSome → item.val.isSome) := by
  obtain ⟨tag, htag, h⟩ := Option.bind_eq_some_iff.mp h
  refine ⟨tag, htag, ?_⟩
  cases hv : tag.val with
  | none =>
    rw [hv] at h
    cases h
    exact ⟨rfl, rfl, id⟩
  | some v =>
    rw [hv] at h
    obtain ⟨buf, hbuf, rfl⟩ := Option.map_eq_some_iff.mp h
    exact ⟨rfl, hbuf.symm, id⟩

end PointerTable

open PointerTable

/-- The memory holds the chains of a table, at the addresses in `chain`, and nothing else. -/
structure Models {config : HashConfig} (p : PointerTable) (context : HashContext config)
    (chain : ℕ → List Addr) : Prop where
  hangs : ∀ {i items}, context.bucketHead[i]? = some items → Hangs p.hooks i (chain i)
  items : ∀ {i items}, context.bucketHead[i]? = some items →
    (chain i).map p.itemAt = items.map some
  disjoint : ∀ {i j}, i < context.bucketHead.length → j < context.bucketHead.length → i ≠ j →
    List.Disjoint (chain i) (chain j)
  live : ∀ {a}, (p.items a).isSome ↔ ∃ i < context.bucketHead.length, a ∈ chain i
  nodes : ∀ {a}, (p.hooks.links a).isSome → (p.items a).isSome
  owned : ∀ {v}, (p.vals v).isSome → ∃ a, p.valAt a = some v
  unshared : ∀ {a a' v}, p.valAt a = some v → p.valAt a' = some v → a = a'

section Calls

variable {charToInt : UInt8 → Int32} {config : HashConfig} {context : HashContext config}
  {p p' : PointerTable} {chain : ℕ → List Addr} {i : ℕ} {items items' : List Item} {a v : Addr}
  {l₁ l₂ : List Addr} {fuel : ℕ}

theorem lt_length (hi : context.bucketHead[i]? = some items) : i < context.bucketHead.length :=
  (List.getElem?_eq_some_iff.mp hi).1

/-- The value of a live item is there. -/
theorem Models.val_isSome (h : Models p context chain) (hval : p.valAt a = some v) :
    (p.vals v).isSome := by
  have hlive : (p.items a).isSome := by
    rw [Option.isSome_iff_exists]
    obtain ⟨tag, htag, -⟩ := Option.bind_eq_some_iff.mp hval
    exact ⟨tag, htag⟩
  obtain ⟨i, hi, ha⟩ := h.live.mp hlive
  have hitems := h.items (List.getElem?_eq_getElem hi)
  obtain ⟨item, -, hitem⟩ := List.mem_map.mp (hitems ▸ List.mem_map_of_mem (f := p.itemAt) ha)
  obtain ⟨tag, htag, -, hbuf, hsome⟩ := itemAt_eq_some hitem.symm
  rw [valAt, htag, Option.bind_some] at hval
  rw [hval, Option.bind_some] at hbuf
  rw [← hbuf]
  exact hsome (by rw [hval]; rfl)

/-! ## A chain is written -/

/-- **A chain is written**: its list, its items and their values, and nothing of the others. -/
theorem Models.edit (h : Models p context chain) (hi : context.bucketHead[i]? = some items)
    {l : List Addr} (touched : List Addr) (hl : Hangs p'.hooks i l)
    (hframe : Frame p.hooks p'.hooks i touched)
    (hitems : l.map p'.itemAt = items'.map some)
    (hother : ∀ b, b ∉ touched → p'.items b = p.items b)
    (hvals : ∀ b v, b ∉ touched → p.valAt b = some v → p'.vals v = p.vals v)
    (htouched : ∀ b ∈ touched, b ∈ chain i ∨ p.items b = none)
    (hlive : ∀ b ∈ touched, (p'.items b).isSome ↔ b ∈ l) (hsub : l ⊆ touched)
    (hchain : chain i ⊆ touched)
    (hnodes : ∀ b ∈ touched, (p'.hooks.links b).isSome → (p'.items b).isSome)
    (howned : ∀ {v}, (p'.vals v).isSome → ∃ b, p'.valAt b = some v)
    (hunshared : ∀ {b b' v}, p'.valAt b = some v → p'.valAt b' = some v → b = b') :
    Models p' (context.setBucket i items') (Function.update chain i l) := by
  have hlen : (context.setBucket i items').bucketHead.length = context.bucketHead.length :=
    List.length_set
  -- the nodes of another chain are not touched
  have hfar : ∀ {j}, j < context.bucketHead.length → j ≠ i → List.Disjoint (chain j) touched := by
    intro j hj hne b hb hmem
    rcases htouched b hmem with hb' | hnone
    · exact h.disjoint hj (lt_length hi) hne hb hb'
    · have hsome := h.live.mpr ⟨j, hj, hb⟩
      rw [hnone] at hsome
      cases hsome
  have hget : ∀ {j items''}, (context.setBucket i items').bucketHead[j]? = some items'' →
      j = i ∧ items'' = items' ∨ j ≠ i ∧ context.bucketHead[j]? = some items'' := by
    intro j items'' hj
    rw [setBucket, List.getElem?_set] at hj
    split_ifs at hj with heq hlt
    · cases hj
      exact .inl ⟨heq.symm, rfl⟩
    · exact .inr ⟨Ne.symm heq, hj⟩
  refine ⟨fun hj => ?_, fun hj => ?_, fun hj hk hne => ?_, fun {b} => ?_, fun {b} hb => ?_, howned,
    hunshared⟩
  · rcases hget hj with ⟨rfl, -⟩ | ⟨hne, hj'⟩
    · rwa [Function.update_self]
    · rw [Function.update_of_ne hne]
      exact hframe.hangs (h.hangs hj') hne (hfar (lt_length hj') hne)
  · rcases hget hj with ⟨rfl, rfl⟩ | ⟨hne, hj'⟩
    · rwa [Function.update_self]
    · rw [Function.update_of_ne hne, ← h.items hj']
      refine List.map_congr_left fun b hb => ?_
      have hb' := hfar (lt_length hj') hne hb
      exact itemAt_congr (hother b hb') fun v hv => hvals b v hb' hv
  · rw [hlen] at hj hk
    rename_i j k
    rcases eq_or_ne j i with rfl | hji
    · rw [Function.update_self, Function.update_of_ne (Ne.symm hne)]
      exact fun b hb hb' => hfar hk (Ne.symm hne) hb' (hsub hb)
    · rw [Function.update_of_ne hji]
      rcases eq_or_ne k i with rfl | hki
      · rw [Function.update_self]
        exact fun b hb hb' => hfar hj hji hb (hsub hb')
      · rw [Function.update_of_ne hki]
        exact h.disjoint hj hk hne
  · rw [hlen]
    constructor
    · intro hb
      by_cases hmem : b ∈ touched
      · exact ⟨i, lt_length hi, by rw [Function.update_self]; exact (hlive b hmem).mp hb⟩
      · rw [hother b hmem] at hb
        obtain ⟨j, hj, hbj⟩ := h.live.mp hb
        have hji : j ≠ i := fun heq => hmem (hchain (heq ▸ hbj))
        exact ⟨j, hj, by rwa [Function.update_of_ne hji]⟩
    · rintro ⟨j, hj, hbj⟩
      rcases eq_or_ne j i with rfl | hji
      · rw [Function.update_self] at hbj
        exact (hlive b (hsub hbj)).mpr hbj
      · rw [Function.update_of_ne hji] at hbj
        rw [hother b (hfar hj hji hbj)]
        exact h.live.mpr ⟨j, hj, hbj⟩
  · by_cases hmem : b ∈ touched
    · exact hnodes b hmem hb
    · rw [hother b hmem]
      rw [hframe.links b hmem] at hb
      exact h.nodes hb

/-- `_item_init` with memory that is granted. -/
theorem itemInit_of_eq_some {keyHash : UInt32} {val : CString} {item : Item}
    (hitem : itemInit keyHash val = some item) :
    ∃ buf, item = ⟨keyHash, some buf⟩ ∧ p.itemInit a v keyHash val = some
      { hooks := { p.hooks with links := Function.update p.hooks.links a (some ⟨none, none⟩) }
        items := Function.update p.items a (some ⟨keyHash, some v⟩)
        vals := Function.update p.vals v (some buf) } := by
  obtain ⟨buf, hbuf, hitem⟩ := Option.bind_eq_some_iff.mp hitem
  cases hitem
  refine ⟨buf, rfl, ?_⟩
  rw [PointerTable.itemInit]
  generalize UInt32.ofNat val.bytes.length = len at hbuf
  simp [callocItem, callocVal, setVal, strncpyVal, setKeyHash, hbuf]

theorem itemInit_of_eq_none {keyHash : UInt32} {val : CString}
    (hitem : itemInit keyHash val = none) : p.itemInit a v keyHash val = none := by
  have hbuf : strncpy (some (calloc (align4Up (UInt32.ofNat val.bytes.length)))) val.bytes
      (UInt32.ofNat val.bytes.length).toNat = none := by
    rw [Option.eq_none_iff_forall_ne_some]
    intro buf hbuf
    rw [itemInit] at hitem
    rw [hbuf] at hitem
    cases hitem
  rw [PointerTable.itemInit]
  generalize UInt32.ofNat val.bytes.length = len at hbuf
  simp [callocItem, callocVal, setVal, strncpyVal, hbuf]

/-- **`_add_item_to_list`** puts a new item in front of a chain. -/
theorem Models.push (h : Models p context chain) (hi : context.bucketHead[i]? = some items)
    (ha : p.items a = none) (hv : p.vals v = none) (keyHash : UInt32) (buf : List UInt8) :
    ∃ hooks, hlistAddHead
        { p.hooks with links := Function.update p.hooks.links a (some ⟨none, none⟩) } a i =
          some hooks ∧
      Models ⟨hooks, Function.update p.items a (some ⟨keyHash, some v⟩),
          Function.update p.vals v (some buf)⟩
        (context.setBucket i (⟨keyHash, some buf⟩ :: items))
        (Function.update chain i (a :: chain i)) := by
  have hnot : ∀ {b}, b ∈ chain i → b ≠ a := by
    rintro b hb rfl
    have hsome := h.live.mpr ⟨i, lt_length hi, hb⟩
    rw [ha] at hsome
    cases hsome
  -- the node is on no list, so its new pointers change none
  have hframe₀ : Frame p.hooks
      { p.hooks with links := Function.update p.hooks.links a (some ⟨none, none⟩) } (i + 1) [a] :=
    ⟨fun _ _ => rfl, fun b hb => Function.update_of_ne (by simpa using hb) _ _⟩
  have hl := hframe₀.hangs (h.hangs hi) (Nat.ne_of_lt (Nat.lt_succ_self i)) fun b hb hb' =>
    hnot hb (by simpa using hb')
  obtain ⟨hooks, hadd, hhangs, hframe⟩ := hlistAddHead_hangs hl (fun hmem => hnot hmem rfl)
    (by simp)
  have hval : ∀ b, valAt ⟨hooks, Function.update p.items a (some ⟨keyHash, some v⟩),
      Function.update p.vals v (some buf)⟩ b = if b = a then some v else p.valAt b := by
    intro b
    rw [valAt]
    dsimp only
    rw [Function.update_apply]
    split_ifs <;> rfl
  have hfresh : ∀ {b w}, p.valAt b = some w → w ≠ v := by
    rintro b w hw rfl
    have hsome := h.val_isSome hw
    rw [hv] at hsome
    cases hsome
  have hlive : ∀ b ∈ a :: chain i,
      (Function.update p.items a (some ⟨keyHash, some v⟩) b).isSome := by
    intro b hb
    rcases List.mem_cons.mp hb with rfl | hb
    · rw [Function.update_self]
      rfl
    · rw [Function.update_of_ne (hnot hb)]
      exact h.live.mpr ⟨i, lt_length hi, hb⟩
  refine ⟨hooks, hadd, h.edit hi (a :: chain i) hhangs ?_ ?_ ?_ ?_ ?_
    (fun b hb => iff_of_true (hlive b hb) hb) (List.Subset.refl _) (List.subset_cons_self _ _)
    (fun b hb _ => hlive b hb) ?_ ?_⟩
  · refine ⟨hframe.first, fun b hb => (hframe.links b hb).trans (Function.update_of_ne ?_ _ _)⟩
    exact (List.ne_and_not_mem_of_not_mem_cons hb).1
  · rw [List.map_cons, List.map_cons, ← h.items hi]
    congr 1
    · simp [itemAt]
    · refine List.map_congr_left fun b hb => itemAt_congr (Function.update_of_ne (hnot hb) _ _) ?_
      exact fun w hw => Function.update_of_ne (hfresh hw) _ _
  · exact fun b hb => Function.update_of_ne (List.ne_and_not_mem_of_not_mem_cons hb).1 _ _
  · exact fun b w _ hw => Function.update_of_ne (hfresh hw) _ _
  · intro b hb
    rcases List.mem_cons.mp hb with rfl | hb
    · exact .inr ha
    · exact .inl hb
  · intro w hw
    rcases eq_or_ne w v with rfl | hne
    · exact ⟨a, by rw [hval, if_pos rfl]⟩
    · have hw' : (p.vals w).isSome := by rwa [← Function.update_of_ne hne (some buf) p.vals]
      obtain ⟨b, hb⟩ := h.owned hw'
      have hba : b ≠ a := by
        rintro rfl
        rw [valAt, ha] at hb
        cases hb
      exact ⟨b, by rwa [hval, if_neg hba]⟩
  · intro b b' w hb hb'
    rw [hval] at hb hb'
    split_ifs at hb hb' with hba hba' hba'
    · exact hba.trans hba'.symm
    · cases hb
      exact absurd rfl (hfresh hb')
    · cases hb'
      exact absurd rfl (hfresh hb)
    · exact h.unshared hb hb'

/-- `_item_final` of an item whose value is there. -/
theorem itemFinal_eq {tag : ItemTag} (htag : p.items a = some tag)
    (hval : ∀ v, tag.val = some v → (p.vals v).isSome) :
    ∃ vals, p.itemFinal a = some
        ⟨{ p.hooks with links := Function.update p.hooks.links a none },
          Function.update p.items a none, vals⟩ ∧
      ∀ w, vals w = if p.valAt a = some w then none else p.vals w := by
  cases hv : tag.val with
  | none =>
    refine ⟨p.vals, ?_, fun w => ?_⟩
    · simp [itemFinal, freeItem, htag, hv]
    · simp [valAt, htag, hv]
  | some v =>
    obtain ⟨buf, hbuf⟩ := Option.isSome_iff_exists.mp (hval v hv)
    refine ⟨Function.update p.vals v none, ?_, fun w => ?_⟩
    · simp [itemFinal, freeVal, setVal, freeItem, htag, hv, hbuf]
    · rw [Function.update_apply]
      simp [valAt, htag, hv, eq_comm]

/-- **`_del_item_from_list`** takes an item out of its chain, and gives back its memory. -/
theorem Models.erase (h : Models p context chain) (hi : context.bucketHead[i]? = some items)
    (hchain : chain i = l₁ ++ a :: l₂) (hitems : (l₁ ++ l₂).map p.itemAt = items'.map some) :
    ∃ p', p.delItemFromList a = some (p', ()) ∧
      Models p' (context.setBucket i items') (Function.update chain i (l₁ ++ l₂)) := by
  have hl := h.hangs hi
  rw [hchain] at hl
  obtain ⟨hooks, hdel, hhangs, hframe⟩ := hlistDel_hangs listPoison hl
  have hmem : a ∈ chain i := by simp [hchain]
  obtain ⟨tag, htag⟩ := Option.isSome_iff_exists.mp (h.live.mpr ⟨i, lt_length hi, hmem⟩)
  obtain ⟨vals, hfinal, hvals⟩ := itemFinal_eq (p := { p with hooks }) (a := a) htag fun v hv =>
    h.val_isSome (a := a) (by rw [valAt, htag, Option.bind_some, hv])
  have hnot : a ∉ l₁ ++ l₂ := (List.nodup_cons.mp (List.nodup_middle.mp hl.nodup)).1
  have hmem_iff : ∀ {b}, b ∈ chain i ↔ b = a ∨ b ∈ l₁ ++ l₂ := by
    intro b
    rw [hchain]
    simp only [List.mem_append, List.mem_cons]
    tauto
  have hne_of_mem : ∀ {b}, b ∈ l₁ ++ l₂ → b ≠ a := fun hb heq => hnot (heq ▸ hb)
  set p' : PointerTable := ⟨{ hooks with links := Function.update hooks.links a none },
    Function.update p.items a none, vals⟩ with hp'
  have hval : ∀ b, p'.valAt b = if b = a then none else p.valAt b := by
    intro b
    rw [valAt, hp']
    dsimp only
    rw [Function.update_apply]
    split_ifs <;> rfl
  -- no other item has the buffer that is given back
  have hkept : ∀ {b w}, b ≠ a → p.valAt b = some w → vals w = p.vals w := by
    intro b w hba hw
    rw [hvals]
    exact if_neg fun hown => hba (h.unshared hw hown)
  have hlive : ∀ {b}, b ∈ l₁ ++ l₂ → (p'.items b).isSome := by
    intro b hb
    rw [hp']
    dsimp only
    rw [Function.update_of_ne (hne_of_mem hb)]
    exact h.live.mpr ⟨i, lt_length hi, hmem_iff.mpr (.inr hb)⟩
  have hgone : p'.items a = none := Function.update_self a none p.items
  refine ⟨p', ?_, h.edit hi (chain i) ?_ ?_ ?_ ?_ ?_ (fun b hb => .inl hb) ?_
    (fun b hb => hmem_iff.mpr (.inr hb)) (List.Subset.refl _) ?_ ?_ ?_⟩
  · rw [PointerTable.delItemFromList, hdel, Option.bind_eq_bind, Option.bind_some, hfinal]
    rfl
  · -- the node that is given back is on no list
    have hframe₀ : Frame hooks p'.hooks (i + 1) [a] :=
      ⟨fun _ _ => rfl, fun b hb => Function.update_of_ne (by simpa using hb) _ _⟩
    exact hframe₀.hangs hhangs (Nat.ne_of_lt (Nat.lt_succ_self i)) fun b hb hb' =>
      hne_of_mem hb (by simpa using hb')
  · rw [← hchain] at hframe
    refine ⟨hframe.first, fun b hb => ?_⟩
    have hba : b ≠ a := fun heq => hb (hmem_iff.mpr (.inl heq))
    exact (Function.update_of_ne hba _ _).trans (hframe.links b hb)
  · rw [← hitems]
    refine List.map_congr_left fun b hb => ?_
    have hba := hne_of_mem hb
    exact itemAt_congr (Function.update_of_ne hba _ _) fun w hw => hkept hba hw
  · exact fun b hb => Function.update_of_ne (fun heq => hb (hmem_iff.mpr (.inl heq))) _ _
  · exact fun b w hb hw => hkept (fun heq => hb (hmem_iff.mpr (.inl heq))) hw
  · intro b hb
    rcases hmem_iff.mp hb with rfl | hb
    · rw [hgone]
      exact iff_of_false Bool.false_ne_true hnot
    · exact iff_of_true (hlive hb) hb
  · intro b hb hlinks
    rcases hmem_iff.mp hb with rfl | hb
    · rw [hp'] at hlinks
      dsimp only at hlinks
      rw [Function.update_self] at hlinks
      cases hlinks
    · exact hlive hb
  · intro w hw
    change (vals w).isSome at hw
    rw [hvals] at hw
    split_ifs at hw with hown
    · cases hw
    · obtain ⟨b, hb⟩ := h.owned hw
      have hba : b ≠ a := by
        rintro rfl
        exact hown hb
      exact ⟨b, by rwa [hval, if_neg hba]⟩
  · intro b b' w hb hb'
    rw [hval] at hb hb'
    split_ifs at hb hb'
    exact h.unshared hb hb'

/-! ## The search of a chain -/

theorem Models.findItemFromList_of_none (h : Models p context chain)
    (hi : context.bucketHead[i]? = some items) {β : Type}
    (cb : PointerTable → Addr → Option (PointerTable × β)) {keyHash : UInt32}
    (hnone : Chains.find Item.keyHash keyHash items = none) (hfuel : (chain i).length ≤ fuel) :
    PointerTable.findItemFromList cb fuel keyHash p i = some (p, none) := by
  apply forEachSafe_pass (h.hangs hi) _ hfuel
  intro b hb
  obtain ⟨item, hitem, hat⟩ :=
    List.mem_map.mp (h.items hi ▸ List.mem_map_of_mem (f := p.itemAt) hb)
  obtain ⟨tag, htag, hhash, -⟩ := itemAt_eq_some hat.symm
  have hne : tag.keyHash ≠ keyHash := by
    rintro rfl
    exact Chains.find_eq_none.mp hnone (hhash ▸ List.mem_map_of_mem hitem)
  simp [findBody, htag, hne]

/-- The search stops at the first item with the hash. -/
theorem Models.findItemFromList_of_some (h : Models p context chain)
    (hi : context.bucketHead[i]? = some items) {item : Item} {keyHash : UInt32}
    (hsome : Chains.find Item.keyHash keyHash items = some item)
    (hfuel : (chain i).length ≤ fuel) :
    ∃ l₁ a l₂, chain i = l₁ ++ a :: l₂ ∧ p.itemAt a = some item ∧
      (l₁ ++ l₂).map p.itemAt = (Chains.erase Item.keyHash keyHash items).map some ∧
      ∀ {β : Type} (cb : PointerTable → Addr → Option (PointerTable × β)),
        PointerTable.findItemFromList cb fuel keyHash p i =
          (cb p a).map fun r => (r.1, some r.2) := by
  obtain ⟨m₁, m₂, rfl, hm₁, herase⟩ := Chains.exists_split hsome
  have hitems := h.items hi
  rw [List.map_append, List.map_cons] at hitems
  obtain ⟨l₁, r, hchain, hl₁, hr⟩ := List.map_eq_append_iff.mp hitems
  obtain ⟨a, l₂, rfl, hitem, hl₂⟩ := List.map_eq_cons_iff.mp hr
  have hl := h.hangs hi
  rw [hchain] at hl
  refine ⟨l₁, a, l₂, hchain, hitem, ?_, ?_⟩
  · rw [herase, List.map_append, List.map_append, hl₁, hl₂]
  · intro β cb
    have hbody : findBody cb keyHash p a = (cb p a).map fun r => (r.1, some r.2) := by
      obtain ⟨tag, htag, hhash, -⟩ := itemAt_eq_some hitem
      simp [findBody, htag, hhash, Chains.tag_of_find hsome]
    rw [← hbody]
    refine forEachSafe_break hl (fun b hb => ?_) (fun s' hs' => ?_) ?_
    · obtain ⟨item', hitem', hat⟩ :=
        List.mem_map.mp (hl₁ ▸ List.mem_map_of_mem (f := p.itemAt) hb)
      obtain ⟨tag, htag, hhash, -⟩ := itemAt_eq_some hat.symm
      have hne : tag.keyHash ≠ keyHash := by
        rintro rfl
        exact hm₁ (hhash ▸ List.mem_map_of_mem hitem')
      simp [findBody, htag, hne]
    · rw [hbody] at hs'
      obtain ⟨r, -, hr⟩ := Option.map_eq_some_iff.mp hs'
      cases hr
    · rw [hchain, List.length_append, List.length_cons] at hfuel
      omega

/-- `_replace_item_val` gives back the new buffer, and then has none to write to. -/
theorem replaceItemVal_pointer_eq_none {item : Item} (hitem : p.itemAt a = some item)
    {val : CString} : PointerTable.replaceItemVal v val p a = none := by
  obtain ⟨tag, htag, -⟩ := itemAt_eq_some hitem
  simp [PointerTable.replaceItemVal, callocVal, setVal, freeVal, strncpyVal, htag]

/-- `_get_item_val` reads what the item holds, and writes nothing. -/
theorem getItemVal_pointer_eq {buf : List UInt8} {item : Item} (hitem : p.itemAt a = some item) :
    PointerTable.getItemVal buf p a = (getItemVal buf item).map fun r => (p, r.2) := by
  obtain ⟨tag, htag, -, hval, -⟩ := itemAt_eq_some hitem
  rw [PointerTable.getItemVal, getItemVal, hval, htag]
  simp only [Option.bind_eq_bind, Option.bind_some]
  cases tag.val with
  | none => rfl
  | some v =>
    simp only [Option.bind_some]
    cases p.vals v with
    | none => rfl
    | some val =>
      simp only [Option.bind_some]
      cases stringOf val with
      | none => rfl
      | some str =>
        simp only [Option.bind_some]
        cases strncpy (some buf) str str.length <;> rfl

/-! ## Calls -/

/-- Chains that are this short are gone over in `fuel` rounds. -/
def Short (context : HashContext config) (chain : ℕ → List Addr) (fuel : ℕ) : Prop :=
  ∀ i < context.bucketHead.length, (chain i).length ≤ fuel

/-- The chains after a call that writes one of them. -/
theorem Short.update {n : ℕ} (h : Short context chain n) {l : List Addr} (hl : l.length ≤ n + 1) :
    Short (context.setBucket i items) (Function.update chain i l) (n + 1) := by
  intro j hj
  rw [setBucket, List.length_set] at hj
  rw [Function.update_apply]
  split_ifs
  · exact hl
  · exact (h j hj).trans (Nat.le_succ n)

theorem Short.succ {n : ℕ} (h : Short context chain n) : Short context chain (n + 1) :=
  fun j hj => (h j hj).trans (Nat.le_succ n)

/-- The chain of a key is gone over in `fuel` rounds. -/
theorem Short.bucket_le (charToInt : UInt8 → Int32) {n : ℕ} (h : Short context chain n)
    (hmax : 1 ≤ config.bucketMaxLen) (hfuel : n < fuel) (key : CString) :
    (chain (index charToInt config key)).length ≤ fuel :=
  (h _ (index_lt charToInt hmax context key)).trans hfuel.le

/-- Both are undefined, or both return the same and the memory holds the chains, which are short. -/
def Agree {γ : Type} (n : ℕ) :
    Option (PointerTable × γ) → Option (HashContext config × γ) → Prop :=
  Option.Rel fun r r' => r.2 = r'.2 ∧ ∃ chain, Models r.1 r'.1 chain ∧ Short r'.1 chain n

theorem Agree.cases {γ : Type} {n : ℕ} {r : Option (PointerTable × γ)}
    {r' : Option (HashContext config × γ)} (h : Agree n r r') :
    r = none ∧ r' = none ∨ ∃ p context out chain, r = some (p, out) ∧ r' = some (context, out) ∧
      Models p context chain ∧ Short context chain n := by
  rcases h with ⟨hout, chain, h, hshort⟩ | _
  · rename_i r r'
    obtain ⟨p, out⟩ := r
    obtain ⟨context, out'⟩ := r'
    cases hout
    exact .inr ⟨p, context, out, chain, rfl, rfl, h, hshort⟩
  · exact .inl ⟨rfl, rfl⟩

section Steps

variable (h : Models p context chain) (hmax : 1 ≤ config.bucketMaxLen) {n : ℕ}
  (hshort : Short context chain n) (hfuel : n < fuel) {key : CString}

include h hmax hshort hfuel

theorem Models.step_add {val : CString} (ha : p.items a = none) (hv : p.vals v = none) :
    Agree (n + 1) (pointerStep charToInt config fuel p (.add key val a v))
      (hashStep charToInt context (.add key val)) := by
  have hi := getElem?_index charToInt hmax context key
  have hlen := hshort.bucket_le charToInt hmax hfuel key
  cases hlookup : context.lookup charToInt key with
  | some item =>
    -- the new value has nowhere to go
    obtain ⟨l₁, b, l₂, -, hitem, -, hfind⟩ := h.findItemFromList_of_some hi hlookup hlen
    have hnone : pointerStep charToInt config fuel p (.add key val a v) = none := by
      simp [pointerStep, PointerTable.utilsHashItemAdd, hfind,
        replaceItemVal_pointer_eq_none hitem]
    rw [hnone, hashStep, utilsHashItemAdd_of_some hmax hlookup]
    exact .none
  | none =>
    have hfind := h.findItemFromList_of_none hi (PointerTable.replaceItemVal v val) hlookup hlen
    rw [hashStep, utilsHashItemAdd_of_none hmax hlookup]
    cases hitem : itemInit (utilsHashGenerate charToInt key) val with
    | none =>
      have hnone : pointerStep charToInt config fuel p (.add key val a v) = none := by
        simp [pointerStep, PointerTable.utilsHashItemAdd, hfind, PointerTable.addItemToList,
          itemInit_of_eq_none hitem]
      rw [hnone]
      exact .none
    | some item =>
      obtain ⟨buf, rfl, hinit⟩ := itemInit_of_eq_some (p := p) (a := a) (v := v) hitem
      obtain ⟨hooks, hhooks, hmodels⟩ := h.push hi ha hv _ buf
      have hsome : pointerStep charToInt config fuel p (.add key val a v) =
          some (⟨hooks, Function.update p.items a (some ⟨utilsHashGenerate charToInt key, some v⟩),
            Function.update p.vals v (some buf)⟩, .add) := by
        simp [pointerStep, PointerTable.utilsHashItemAdd, hfind, PointerTable.addItemToList, hinit,
          hhooks]
      rw [hsome]
      exact .some ⟨rfl, _, hmodels, hshort.update (Nat.succ_le_succ (hshort _ (lt_length hi)))⟩

theorem Models.step_del :
    Agree (n + 1) (pointerStep charToInt config fuel p (.del key))
      (hashStep charToInt context (.del key)) := by
  have hi := getElem?_index charToInt hmax context key
  have hlen := hshort.bucket_le charToInt hmax hfuel key
  rw [hashStep, utilsHashItemDel_eq hmax]
  cases hlookup : context.lookup charToInt key with
  | none =>
    have hsame : context.eraseItem charToInt key = context := by
      rw [eraseItem, Chains.erase_of_none hlookup, setBucket_self hmax]
    have hfind := h.findItemFromList_of_none hi PointerTable.delItemFromList hlookup hlen
    have hsome : pointerStep charToInt config fuel p (.del key) = some (p, .del false) := by
      simp [pointerStep, PointerTable.utilsHashItemDel, hfind]
    rw [hsome, hsame]
    exact .some ⟨rfl, chain, h, hshort.succ⟩
  | some item =>
    obtain ⟨l₁, a, l₂, hchain, -, hrest, hfind⟩ := h.findItemFromList_of_some hi hlookup hlen
    obtain ⟨p', hdel, hmodels⟩ := h.erase hi hchain hrest
    have hsome : pointerStep charToInt config fuel p (.del key) = some (p', .del true) := by
      simp [pointerStep, PointerTable.utilsHashItemDel, hfind, hdel]
    rw [hsome]
    refine .some ⟨rfl, _, hmodels, hshort.update ?_⟩
    have hlen' := hshort _ (lt_length hi)
    rw [hchain, List.length_append, List.length_cons] at hlen'
    rw [List.length_append]
    omega

theorem Models.step_get {buf : List UInt8} :
    Agree (n + 1) (pointerStep charToInt config fuel p (.get key buf))
      (hashStep charToInt context (.get key buf)) := by
  have hi := getElem?_index charToInt hmax context key
  have hlen := hshort.bucket_le charToInt hmax hfuel key
  cases hlookup : context.lookup charToInt key with
  | none =>
    have hfind := h.findItemFromList_of_none hi (PointerTable.getItemVal buf) hlookup hlen
    have hsome : pointerStep charToInt config fuel p (.get key buf) = some (p, .get false buf) := by
      simp [pointerStep, PointerTable.utilsHashItemGet, hfind]
    rw [hsome, hashStep, utilsHashItemGet_of_none hmax buf hlookup]
    exact .some ⟨rfl, chain, h, hshort.succ⟩
  | some item =>
    obtain ⟨l₁, a, l₂, -, hitem, -, hfind⟩ := h.findItemFromList_of_some hi hlookup hlen
    have hget : pointerStep charToInt config fuel p (.get key buf) =
        (getItemVal buf item).map fun r => (p, .get true r.2) := by
      rw [pointerStep, PointerTable.utilsHashItemGet, hfind, getItemVal_pointer_eq hitem]
      cases getItemVal buf item <;> rfl
    rw [hget, hashStep, utilsHashItemGet_of_some hmax buf hlookup]
    cases getItemVal buf item with
    | none => exact .none
    | some r => exact .some ⟨rfl, chain, h, hshort.succ⟩

/-- **A call** does to the pointers what it does to the chains. -/
theorem Models.step {op : PointerOp} (hfresh : Fresh p op) :
    Agree (n + 1) (pointerStep charToInt config fuel p op)
      (hashStep charToInt context op.call) := by
  cases op with
  | add key val a v => exact h.step_add hmax hshort hfuel hfresh.1 hfresh.2
  | del key => exact h.step_del hmax hshort hfuel
  | get key buf => exact h.step_get hmax hshort hfuel

end Steps

/-! ## Runs -/

theorem foldlM_initHlistHead {m : Hooks ℕ Addr} {heads : List ℕ}
    (h : ∀ i ∈ heads, m.first i = some none) : heads.foldlM initHlistHead m = some m := by
  induction heads with
  | nil => rfl
  | cons i heads ih =>
    obtain ⟨hi, hrest⟩ := List.forall_mem_cons.mp h
    have hinit : initHlistHead m i = some m := by
      have hsame : Function.update m.first i (some none) = m.first := by
        rw [← hi, Function.update_eq_self]
      rw [initHlistHead, setFirst, hi, Option.map_some, hsame]
    rw [List.foldlM_cons, hinit, Option.bind_eq_bind, Option.bind_some, ih hrest]

/-- The heads are cleared as they are allocated. -/
theorem utilsHashCreate_eq (config : HashConfig) :
    PointerTable.utilsHashCreate config =
      some (callocHeads config.bucketMaxLen.toInt.toNat) := by
  have hheads : (List.range config.bucketMaxLen.toInt.toNat).foldlM initHlistHead
      (callocHeads config.bucketMaxLen.toInt.toNat).hooks =
        some (callocHeads config.bucketMaxLen.toInt.toNat).hooks :=
    foldlM_initHlistHead fun i hi => if_pos (List.mem_range.mp hi)
  rw [PointerTable.utilsHashCreate]
  dsimp only
  rw [hheads]
  rfl

/-- A new table has the heads of its buckets. -/
theorem models_create {p₀ : PointerTable}
    (hcreate : PointerTable.utilsHashCreate config = some p₀) :
    Models p₀ (utilsHashCreate config) fun _ => [] := by
  cases (utilsHashCreate_eq config).symm.trans hcreate
  have hget : ∀ {i items}, (utilsHashCreate config).bucketHead[i]? = some items →
      i < config.bucketMaxLen.toInt.toNat ∧ items = [] := by
    intro i items hi
    rw [utilsHashCreate, List.getElem?_replicate] at hi
    split_ifs at hi with hlt
    cases hi
    exact ⟨hlt, rfl⟩
  refine ⟨fun hi => .nil (if_pos (hget hi).1), fun hi => ?_, fun _ _ _ b hb => ?_, ?_, ?_, ?_, ?_⟩
  · rw [(hget hi).2]
    rfl
  · cases hb
  · simp [callocHeads]
  · simp [callocHeads]
  · simp [callocHeads]
  · simp [valAt, callocHeads]

/-- The pointers follow the chains along a run. -/
theorem Models.run (hmax : 1 ≤ config.bucketMaxLen) {ops : List PointerOp} {n : ℕ}
    (h : Models p context chain) (hshort : Short context chain n) (hfuel : n + ops.length ≤ fuel)
    (hfresh : EachStep (pointerStep charToInt config fuel) Fresh p ops) :
    Agree fuel (Runs.run (pointerStep charToInt config fuel) p ops)
      (Runs.run (hashStep charToInt) context (ops.map PointerOp.call)) := by
  induction ops generalizing p context chain n with
  | nil => exact .some ⟨rfl, chain, h, fun i hi => (hshort i hi).trans hfuel⟩
  | cons op ops ih =>
    rw [List.length_cons] at hfuel
    rw [List.map_cons]
    have hstep : Agree (n + 1) (pointerStep charToInt config fuel p op)
        (hashStep charToInt context op.call) := h.step hmax hshort (by omega) hfresh.1
    rcases hstep.cases with ⟨hp, hs⟩ | ⟨p₁, context₁, out, chain₁, hp, hs, h₁, hshort₁⟩
    · rw [Runs.run, Runs.run, hp, hs]
      exact .none
    · have hagree := ih h₁ hshort₁ (by omega) (hfresh.2 p₁ out hp)
      rw [Runs.run, Runs.run, hp, hs]
      dsimp only
      rcases hagree.cases with ⟨hp', hs'⟩ | ⟨p', context', outs, chain', hp', hs', h', hshort'⟩
      · rw [hp', hs']
        exact .none
      · rw [hp', hs']
        exact .some ⟨rfl, chain', h', hshort'⟩

/-- **The pointers do what the chains do**: in every run, whatever free memory the allocator answers
with, the pointers are undefined exactly when the chains are, and otherwise every call returns the
same, and what is allocated are the items of the chains and their values. -/
theorem pointers_refine_chains (charToInt : UInt8 → Int32) (hmax : 1 ≤ config.bucketMaxLen)
    {ops : List PointerOp} {p₀ : PointerTable}
    (hcreate : PointerTable.utilsHashCreate config = some p₀) (hfuel : ops.length ≤ fuel)
    (hfresh : EachStep (pointerStep charToInt config fuel) Fresh p₀ ops) :
    Option.Rel (fun r r' => r.2 = r'.2 ∧ ∃ chain, Models r.1 r'.1 chain)
      (Runs.run (pointerStep charToInt config fuel) p₀ ops)
      (Runs.run (hashStep charToInt) (utilsHashCreate config) (ops.map PointerOp.call)) := by
  have hagree := (models_create hcreate).run hmax (n := 0) (fun _ _ => Nat.zero_le _)
    (by omega) hfresh
  rcases hagree.cases with ⟨hp, hs⟩ | ⟨p, context, outs, chain, hp, hs, h, -⟩
  · rw [hp, hs]
    exact .none
  · rw [hp, hs]
    exact .some ⟨rfl, chain, h⟩

/-- Two keys in one table, a value that is read, and an address that is used again. -/
def pointerOps : List PointerOp :=
  [.add key0 hello 1 2, .add key1 world 3 4, .get key0 (List.replicate 8 7), .del key0,
    .add key0 world 1 5]

theorem pointers_refine_chains_two_keys :
    Option.Rel (fun r r' => r.2 = r'.2 ∧ ∃ chain, Models r.1 r'.1 chain)
      (Runs.run (pointerStep signedChar ⟨16⟩ 5) (callocHeads 16) pointerOps)
      (Runs.run (hashStep signedChar) (utilsHashCreate ⟨16⟩) (pointerOps.map PointerOp.call)) :=
  pointers_refine_chains signedChar (by decide) (utilsHashCreate_eq ⟨16⟩) (by decide)
    (by decide +kernel)

/-! ## The end of a table -/

/-- `_traverse_item_list` gives back the items of a bucket. -/
theorem Models.traverse (h : Models p context chain) (hi : i < context.bucketHead.length)
    (hfuel : (chain i).length ≤ fuel) :
    ∃ p' context', p.traverseItemList fuel i = some p' ∧
      Models p' (context' : HashContext config) (Function.update chain i []) := by
  have hlen : ∀ context' : HashContext config, i < context'.bucketHead.length := by
    intro context'
    rwa [context'.length_bucketHead, ← context.length_bucketHead]
  have hbody : ∀ {p a l},
      (∃ context' : HashContext config, Models p context' (Function.update chain i (a :: l))) →
        ∃ p', delBody p a = some (p', none) ∧
          ∃ context' : HashContext config, Models p' context' (Function.update chain i l) := by
    rintro p a l ⟨context', h'⟩
    have hget := List.getElem?_eq_getElem (hlen context')
    have hitems := h'.items hget
    rw [Function.update_self, List.map_cons] at hitems
    obtain ⟨item, items', -, -, hrest⟩ := List.map_eq_cons_iff.mp hitems.symm
    obtain ⟨p', hdel, hp'⟩ := h'.erase hget
      (show Function.update chain i (a :: l) i = [] ++ a :: l by rw [Function.update_self]; rfl)
      hrest.symm
    rw [Function.update_idem] at hp'
    exact ⟨p', by rw [delBody, hdel]; rfl, _, hp'⟩
  obtain ⟨p', hp', context', h'⟩ := forEachSafe_consume (l := chain i)
    (P := fun p l => ∃ context' : HashContext config, Models p context' (Function.update chain i l))
    (fun {p l} h' => by
      obtain ⟨context', h'⟩ := h'
      have hangs := h'.hangs (List.getElem?_eq_getElem (hlen context'))
      rwa [Function.update_self] at hangs)
    hbody ⟨context, by rwa [Function.update_eq_self]⟩ hfuel
  exact ⟨p', context', by rw [traverseItemList, hp']; rfl, h'⟩

/-- The loop of `_context_final`. -/
theorem Models.traverse_all (heads : List ℕ) (h : Models p context chain)
    (hheads : ∀ i ∈ heads, i < context.bucketHead.length) (hshort : Short context chain fuel) :
    ∃ p' context' chain', heads.foldlM (traverseItemList fuel) p = some p' ∧
      Models p' (context' : HashContext config) chain' ∧
      ∀ i, (i ∈ heads ∨ chain i = []) → chain' i = [] := by
  induction heads generalizing p context chain with
  | nil => exact ⟨p, context, chain, rfl, h, fun i hi => hi.resolve_left List.not_mem_nil⟩
  | cons i heads ih =>
    obtain ⟨hi, hrest⟩ := List.forall_mem_cons.mp hheads
    obtain ⟨p₁, context₁, hp₁, h₁⟩ := h.traverse hi (hshort i hi)
    have hlen : context₁.bucketHead.length = context.bucketHead.length := by
      rw [context₁.length_bucketHead, context.length_bucketHead]
    obtain ⟨p', context', chain', hp', h', hnil⟩ := ih h₁ (by rwa [hlen]) (by
      intro j hj
      rw [Function.update_apply]
      split_ifs
      · exact Nat.zero_le _
      · exact hshort j (by rwa [← hlen]))
    refine ⟨p', context', chain', ?_, h', fun j hj => hnil j ?_⟩
    · rw [List.foldlM_cons, hp₁]
      exact hp'
    · rw [Function.update_apply]
      split_ifs with hji
      · exact .inr rfl
      · rwa [List.mem_cons, or_iff_right hji] at hj

/-- **`UtilsHashDestroy` gives everything back**: after every run it ends, uses no memory that has
been given back, and leaves no item, no value and no head. -/
theorem hash_destroy_frees_all (hmax : 1 ≤ config.bucketMaxLen) {ops : List PointerOp}
    {p₀ : PointerTable} {outs : List HashOut}
    (hcreate : PointerTable.utilsHashCreate config = some p₀) (hfuel : ops.length ≤ fuel)
    (hfresh : EachStep (pointerStep charToInt config fuel) Fresh p₀ ops)
    (hrun : Runs.run (pointerStep charToInt config fuel) p₀ ops = some (p, outs)) :
    p.utilsHashDestroy fuel config =
      some ⟨⟨fun _ => none, fun _ => none⟩, fun _ => none, fun _ => none⟩ := by
  have hagree : Agree fuel (Runs.run (pointerStep charToInt config fuel) p₀ ops) _ :=
    (models_create hcreate).run hmax (n := 0) (fun _ _ => Nat.zero_le _) (by omega) hfresh
  obtain ⟨hnone, -⟩ | ⟨_, context, _, chain, hp, -, h, hshort⟩ := hagree.cases
  · cases hrun.symm.trans hnone
  cases hrun.symm.trans hp
  obtain ⟨p', context', chain', hp', h', hnil⟩ := h.traverse_all
    (List.range config.bucketMaxLen.toInt.toNat)
    (fun i hi => by rw [context.length_bucketHead]; exact List.mem_range.mp hi) hshort
  have hitems : ∀ a, p'.items a = none := by
    intro a
    rw [← Option.not_isSome_iff_eq_none, h'.live]
    rintro ⟨i, hi, ha⟩
    rw [context'.length_bucketHead] at hi
    rw [hnil i (.inl (List.mem_range.mpr hi))] at ha
    cases ha
  have hlinks : ∀ a, p'.hooks.links a = none := by
    intro a
    rw [← Option.not_isSome_iff_eq_none]
    intro ha
    have hsome := h'.nodes ha
    rw [hitems a] at hsome
    cases hsome
  have hvals : ∀ v, p'.vals v = none := by
    intro v
    rw [← Option.not_isSome_iff_eq_none]
    intro hv
    obtain ⟨a, ha⟩ := h'.owned hv
    rw [valAt, hitems a] at ha
    cases ha
  rw [utilsHashDestroy, hp', Option.bind_eq_bind, Option.bind_some]
  dsimp only
  rw [funext hlinks, funext hitems, funext hvals]

theorem hash_destroy_frees_all_two_keys :
    ∃ p outs, Runs.run (pointerStep signedChar ⟨16⟩ 5) (callocHeads 16) pointerOps =
        some (p, outs) ∧
      p.utilsHashDestroy 5 ⟨16⟩ =
        some ⟨⟨fun _ => none, fun _ => none⟩, fun _ => none, fun _ => none⟩ := by
  have hsome : (Runs.run (pointerStep signedChar ⟨16⟩ 5) (callocHeads 16) pointerOps).isSome := by
    decide +kernel
  obtain ⟨⟨p, outs⟩, hrun⟩ := Option.isSome_iff_exists.mp hsome
  exact ⟨p, outs, hrun, hash_destroy_frees_all (by decide) (utilsHashCreate_eq ⟨16⟩) (by decide)
    (by decide +kernel) hrun⟩

end Calls

end HyUtils.Hash
