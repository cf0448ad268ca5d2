import HyUtils.Sort.Quick

/-!
# Quick sort with failing allocations

When `_partition` fails to allocate it returns -1, which `HySortQuick` takes as the place of the
pivot: the call goes on with the range from the first item of the array on. On a range that starts
there the call then starts again, and ends as soon as enough allocations in a row succeed; on any
other range it takes in items that are not its own.

## Main definitions

* `KeepsRange`: the call ends with the items of its range rearranged, whatever the array and the
  comparison

## Main results

* `quick_exists_before`: a call ends soon after the allocations start to succeed
* `Quick.calm`, `Quick.calm_above`: comparisons for which all these allocations are needed
* `keepsRange_iff`: the exact condition
* `hySortQuick_all_fail`: a call does not end when all allocations fail
-/

namespace HyUtils.Sort

open Region Items Rearrange Runs

variable {σ : Type} {L : ℕ} {swapCb : HySortSwapCb σ} {mallocOk : ℕ → Bool}
  {xs ys : List (Item UInt8 L)} {l r m m' k : ℕ} {cb cb' : σ}
  {f : Item UInt8 L → Item UInt8 L → Int32}

/-! ## Ends -/

variable (cb) in
/-- **A call ends soon after the allocations start to succeed**: with two allocations for each item
but one, from the first item of the array or, if it starts later, from its range on. -/
theorem quick_exists_before {R : ℕ} (hans : Answers swapCb f)
    (hx : Indexed (UInt32.ofNat L) r xs) (hr : r ≤ R) (hwindow : Calm mallocOk k (2 * (R - 1)))
    (hm : m + 2 * (r - 1 - l) ≤ k + 2 * (R - 1)) :
    ∃ ys cb' m', Quick swapCb mallocOk l r xs cb m ys cb' m' ∧
      m' ≤ max (k + 2 * (r - 1)) (m + 2 * (r - 1 - l)) := by
  -- Induction on the allocations before those that succeed; each partition makes at least one.
  induction hn : k - m using Nat.strong_induction_on generalizing l r xs cb m with
  | _ n ih =>
    subst hn
    rcases Nat.lt_or_ge m k with hlt | hge
    · by_cases hlr : l + 1 < r
      · obtain ⟨position, st, hpart⟩ := partition_ends cb mallocOk m hans hx hlr le_rfl
        rcases partition_cases hx hlr hpart with
          ⟨m₁, rfl, rfl, hfail, hlow, hhigh⟩ | ⟨h₁, h₂, p, v, ys, cb₁, rfl, rfl, hparted⟩
        · -- the allocation that failed is before those that succeed
          have hm₁ : m₁ < k := by
            by_contra hge
            exact hwindow.not_fail (by omega) (by omega) hfail
          obtain ⟨ys, cb', m', hq, hm'⟩ := ih (k - (m₁ + 1)) (by omega) (l := 0) cb hx hr
            (by omega) rfl
          exact ⟨ys, cb', m', .fail hlr ⟨_, hpart⟩ hfail hlow hhigh hq, by omega⟩
        · have hlp := hparted.lower
          have hpr := hparted.upper
          have hys := hx.congr hparted.length_eq
          obtain ⟨zs, cb₂, m₂, hleft, hm₂⟩ := ih (k - (m + 2)) (by omega) (l := l) cb₁
            (hys.mono hpr.le) (by omega) (by omega) rfl
          have hmore := hleft.mallocs.1
          have hzs := hys.congr (hleft.within (Nat.zero_le l) (.inl rfl)).length_eq
          obtain ⟨ws, cb₃, m₃, hright, hm₃⟩ := ih (k - m₂) (by omega) (l := p + 1) cb₂ hzs hr
            (by omega) rfl
          exact ⟨ws, cb₃, m₃, .split hlr ⟨_, hpart⟩ h₁ h₂ hparted hleft hright, by omega⟩
      · exact ⟨xs, cb, m, .done (by omega), by omega⟩
    · -- all allocations succeed from here on
      have hcalm : Calm mallocOk m (2 * (r - 1 - l)) := hwindow.mono hge hm
      obtain ⟨ys, cb', m', hq⟩ := quick_exists cb hans hx hcalm
      have hmost := hq.mallocs.2 hcalm
      exact ⟨ys, cb', m', hq, by omega⟩

/-! ## Comparisons for which all allocations are needed -/

theorem Calm.append {n n' : ℕ} (h : Calm mallocOk m n) (h' : Calm mallocOk (m + n) n') :
    Calm mallocOk m (n + n') := by
  intro i hi
  rcases Nat.lt_or_ge i n with hlt | hge
  · exact h i hlt
  · have hok := h' (i - n) (by omega)
    rwa [Nat.add_assoc, Nat.add_sub_cancel' hge] at hok

theorem calm_two (h₁ : mallocOk m = true) (h₂ : mallocOk (m + 1) = true) : Calm mallocOk m 2 := by
  intro i hi
  obtain rfl | rfl : i = 0 ∨ i = 1 := by omega
  · exact h₁
  · exact h₂

/-- A range of at most one item is left alone. -/
theorem Quick.eq_of_le (hq : Quick swapCb mallocOk l r xs cb m ys cb' m') (h : r ≤ l + 1) :
    ys = xs ∧ m' = m := by
  cases hq with
  | done => exact ⟨rfl, rfl⟩
  | fail hlr => omega
  | split hlr => omega

/-- A first item with nothing below it is its own place, and the first call has nothing to do. -/
theorem Parted.eq_first {p m₂ : ℕ} {v : Item UInt8 L} {zs : List (Item UInt8 L)} {cb₁ cb₂ : σ}
    (hparted : Parted swapCb l r xs p v ys) (hans : Answers swapCb f)
    (hx : Indexed (UInt32.ofNat L) r xs) (hlr : l + 1 < r)
    (hpart : ∃ fuel, partition swapCb mallocOk (UInt32.ofNat L) fuel (Int32.ofNat l)
      (Int32.ofNat (r - 1)) ⟨cells xs, cb, m⟩ = .ok (Int32.ofNat p, ⟨cells ys, cb₁, m + 2⟩))
    (h₁ : mallocOk m = true) (h₂ : mallocOk (m + 1) = true)
    (hge : ∀ i x, l < i → i < r → xs[i]? = some x → 0 ≤ f x v)
    (left : Quick swapCb mallocOk l p ys cb₁ (m + 2) zs cb₂ m₂) : p = l ∧ zs = xs ∧ m₂ = m + 2 := by
  have hsmall := hx.small
  have hpr := hparted.upper
  obtain ⟨fuel, hpart⟩ := hpart
  obtain ⟨hp, harray⟩ := partition_first hans hx hlr hparted.first h₁ h₂ hge hpart
  have hpl : p = l := by
    have htoInt := congrArg Int32.toInt hp
    rw [Int32.toInt_ofNat_of_lt (by omega), Int32.toInt_ofNat_of_lt (by omega)] at htoInt
    omega
  have hyx : ys = xs := cells_inj hparted.length_eq harray
  obtain ⟨hzy, hm⟩ := left.eq_of_le (by omega)
  exact ⟨hpl, hzy.trans hyx, hm⟩

/-- A comparison function to which all items are the same. -/
def equalCb : HySortSwapCb Unit := fun cb _ _ => (0, cb)

theorem answers_equalCb : Answers equalCb fun _ _ : Item UInt8 L => 0 :=
  ⟨fun _ _ _ => Iff.rfl, fun _ _ _ => Iff.rfl⟩

/-- **Items that are the same**: a call from the first item on ends only when two allocations for
each item but one succeed in a row. -/
theorem Quick.calm {cb cb' : Unit} (hq : Quick equalCb mallocOk l r xs cb m ys cb' m')
    (hx : Indexed (UInt32.ofNat L) r xs) (hm : m = k + 2 * l) (hk : Calm mallocOk k (2 * l)) :
    ∃ k, Calm mallocOk k (2 * (r - 1)) := by
  -- the allocations since the last failure have all been made for the items before `l`
  induction hq generalizing k with
  | done h => exact ⟨k, hk.mono le_rfl (by omega)⟩
  | fail _ _ _ _ _ _ ih =>
    exact ih (k := _ + 1) hx rfl fun i hi => absurd hi (Nat.not_lt_zero i)
  | split hlr hpart h₁ h₂ hparted left _ _ ihright =>
    obtain ⟨rfl, rfl, rfl⟩ := hparted.eq_first answers_equalCb hx hlr hpart h₁ h₂
      (fun _ _ _ _ _ => Int32.le_refl _) left
    subst hm
    exact ihright hx (by omega) (hk.append (calm_two h₁ h₂))

/-- **Items that are the same above an item that does not belong below them**: a call on them
leaves it alone only when all its allocations succeed. -/
theorem Quick.calm_above {le : Item UInt8 L → Item UInt8 L → Prop} {w : Item UInt8 L}
    (h : Compares swapCb le) (hq : Quick swapCb mallocOk l r xs cb m ys cb' m')
    (hx : Indexed (UInt32.ofNat L) r xs) (hl : 1 ≤ l) (hw : xs[0]? = some w)
    (hnot : ∀ i x, 1 ≤ i → i < r → xs[i]? = some x → ¬ le w x)
    (hsame : ∀ i j x y, 1 ≤ i → i < r → 1 ≤ j → j < r → xs[i]? = some x → xs[j]? = some y → le x y)
    (hkept : ys[0]? = some w) : Calm mallocOk m (2 * (r - 1 - l)) := by
  obtain ⟨f, hans, -, hnonneg⟩ := h.answers
  induction hq with
  | done h => exact fun i hi => by omega
  | @fail l r xs ys cb cb' m m₁ m' hlr _ _ _ _ rest _ =>
    -- the call that follows sorts the array from its first item on
    exfalso
    have hsorted := rest.sorted h le_rfl (.inl rfl) (.of_le (by omega)) (.of_le le_rfl)
    have hwithin := rest.within le_rfl (.inl rfl)
    obtain ⟨x, hget⟩ := hx.get (show 1 < r by omega)
    obtain ⟨j, -, hjr, hj⟩ := mem_middle_iff.mp
      (hwithin.middle.mem_iff.mpr (mem_middle_iff.mpr ⟨1, Nat.zero_le 1, by omega, hget⟩))
    rcases Nat.eq_zero_or_pos j with rfl | hpos
    · obtain rfl := Option.some.inj (hkept.symm.trans hj)
      exact hnot 1 w le_rfl (by omega) hget (h.refl w)
    · exact hnot 1 x le_rfl (by omega) hget (hsorted 0 j w x le_rfl hpos hjr hkept hj)
  | split hlr hpart h₁ h₂ hparted left _ _ ihright =>
    obtain ⟨rfl, rfl, rfl⟩ := hparted.eq_first hans hx hlr hpart h₁ h₂
      (fun i x hli hir hi => (hnonneg _ _).mpr
        (hsame _ i _ x hl (by omega) (by omega) hir hparted.first hi)) left
    have hrest := ihright hx (by omega) hw hnot hsame hkept
    exact ((calm_two h₁ h₂).append hrest).mono le_rfl (by omega)

/-! ## The function -/

/-- Whatever the array of `n` items and the comparison, a call that ends has rearranged the items of
its range only, and it ends when the signs of the answers depend on the items only. -/
structure KeepsRange (mallocOk : ℕ → Bool) (L n : ℕ) (low high : Int32) : Prop where
  within : ∀ {σ : Type} (swapCb : HySortSwapCb σ) (xs : List (Item UInt8 L)), xs.length = n →
    ∀ cb fuel st, hySortQuick swapCb mallocOk L fuel low high ⟨cells xs, cb, 0⟩ = .ok st →
      ∃ ys, st.array = cells ys ∧ Within low.toNatClampNeg (endOf high) xs ys
  ends : ∀ {σ : Type} (swapCb : HySortSwapCb σ) (f : Item UInt8 L → Item UInt8 L → Int32),
    Answers swapCb f → ∀ xs : List (Item UInt8 L), xs.length = n → ∀ cb,
      ∃ rounds, ∀ fuel ≥ rounds, ∃ st,
        hySortQuick swapCb mallocOk L fuel low high ⟨cells xs, cb, 0⟩ = .ok st

variable {n : ℕ} {low high : Int32}

theorem keepsRange_of_done (h : L = 0 ∨ ¬ low < high) :
    KeepsRange mallocOk L n low high where
  within swapCb xs _ cb fuel st hrun := by
    obtain rfl := eq_of_done h hrun
    exact ⟨xs, rfl, .refl ..⟩
  ends swapCb f _ xs _ cb := by
    obtain ⟨rounds, hrun⟩ := ends_of_done h ⟨cells xs, cb, 0⟩
    exact ⟨rounds, fun fuel hfuel => ⟨_, hrun fuel hfuel⟩⟩

theorem gap_eq (hlow : 0 ≤ low) : endOf high - 1 - low.toNatClampNeg = gap low high := by
  have h0 : 0 ≤ low.toInt := Int32.le_iff_toInt_le.mp hlow
  rw [endOf, gap, ← Int32.toNat_toInt]
  omega

/-- **Enough allocations in a row succeed**: at once, or later when the range starts with the
array. -/
theorem keepsRange_of_calm (hL : 0 < L) (hlow : 0 ≤ low) (hlt : low < high) (hhigh : high.toInt < n)
    (hmax : high.toInt + 1 < 2 ^ 31) (hoff : high.toInt * L < 2 ^ 32) (hk : low = 0 ∨ k = 0)
    (hcalm : Calm mallocOk k (2 * gap low high)) : KeepsRange mallocOk L n low high where
  within swapCb xs hlen cb fuel st hrun := by
    subst hlen
    obtain ⟨ys, cb', m', rfl, hq⟩ := quick_of_call hL hlow hlt hhigh hmax hoff hrun
    refine ⟨ys, rfl, hq.within le_rfl ?_⟩
    rcases hk with rfl | rfl
    · exact .inl rfl
    · exact .inr (by rwa [gap_eq hlow])
  ends swapCb f hans xs hlen cb := by
    subst hlen
    have hx := indexed_of_lt hlow hlt hhigh hoff
    rw [← gap_eq hlow] at hcalm
    have hquick : ∃ ys cb' m', Quick swapCb mallocOk low.toNatClampNeg (endOf high) xs cb 0
        ys cb' m' := by
      rcases hk with rfl | rfl
      · obtain ⟨ys, cb', m', hq, -⟩ := quick_exists_before (l := 0) (m := 0) cb hans hx le_rfl
          hcalm (by omega)
        exact ⟨ys, cb', m', hq⟩
      · exact quick_exists cb hans hx hcalm
    obtain ⟨ys, cb', m', hq⟩ := hquick
    obtain ⟨rounds, hrun⟩ := hq.call hL hlow hlt hmax
    exact ⟨rounds, fun fuel hfuel => ⟨_, hrun fuel hfuel⟩⟩

/-- The item that has the same value in all bytes. -/
def filled (L : ℕ) (b : UInt8) : Item UInt8 L := ⟨List.replicate L b, List.length_replicate⟩

theorem headD_filled (hL : 0 < L) (b : UInt8) : (filled L b).1.headD 0 = b := by
  obtain ⟨L, rfl⟩ := Nat.exists_eq_succ_of_ne_zero hL.ne'
  rfl

/-- The range starts with the array, and its items are all the same. -/
theorem KeepsRange.calm_zero (h : KeepsRange mallocOk L n 0 high) (hL : 0 < L) (hlt : 0 < high)
    (hhigh : high.toInt < n) (hmax : high.toInt + 1 < 2 ^ 31) (hoff : high.toInt * L < 2 ^ 32) :
    ∃ k, Calm mallocOk k (2 * gap 0 high) := by
  have hlow : (0 : Int32) ≤ 0 := Int32.le_refl 0
  have hlen : (List.replicate n (filled L 0)).length = n := List.length_replicate
  rw [← hlen] at hhigh
  obtain ⟨rounds, hrun⟩ := h.ends equalCb _ answers_equalCb _ hlen ()
  obtain ⟨st, hrun⟩ := hrun rounds le_rfl
  obtain ⟨ys, cb', m', -, hq⟩ := quick_of_call hL hlow hlt hhigh hmax hoff hrun
  rw [← gap_eq hlow]
  exact hq.calm (k := 0) (indexed_of_lt hlow hlt hhigh hoff) rfl
    fun i hi => absurd hi (Nat.not_lt_zero i)

/-- The items of the array that has one filled with 1 before those filled with 0. -/
theorem eq_filled {i : ℕ} {x : Item UInt8 L} (hi : 1 ≤ i)
    (hx : (filled L 1 :: List.replicate n (filled L 0))[i]? = some x) : x = filled L 0 := by
  obtain ⟨i, rfl⟩ := Nat.exists_eq_add_of_le' hi
  rw [List.getElem?_cons_succ] at hx
  exact List.eq_of_mem_replicate (List.mem_of_getElem? hx)

/-- The range starts later, and the first item of the array does not belong below its items. -/
theorem KeepsRange.calm_pos (h : KeepsRange mallocOk L (n + 1) low high) (hL : 0 < L)
    (hlow : 0 < low) (hlt : low < high) (hhigh : high.toInt < (n + 1 : ℕ))
    (hmax : high.toInt + 1 < 2 ^ 31) (hoff : high.toInt * L < 2 ^ 32) :
    Calm mallocOk 0 (2 * gap low high) := by
  have hlow' : 0 ≤ low := Int32.le_of_lt hlow
  have hpos : 1 ≤ low.toNatClampNeg := by
    have h0 : 0 < low.toInt := Int32.lt_iff_toInt_lt.mp hlow
    rw [← Int32.toNat_toInt]
    omega
  have hlen : (filled L 1 :: List.replicate n (filled L 0)).length = n + 1 := by
    rw [List.length_cons, List.length_replicate]
  have hcompares := compares_keyCb (L := L) fun x => x.headD 0
  obtain ⟨f, hans, -, -⟩ := hcompares.answers
  -- a run, which leaves the first item where it is
  rw [← hlen] at hhigh
  obtain ⟨rounds, hrun⟩ := h.ends _ f hans _ hlen ()
  obtain ⟨st, hrun⟩ := hrun rounds le_rfl
  obtain ⟨zs, harray, hwithin⟩ := h.within _ _ hlen _ _ _ hrun
  obtain ⟨ys, cb', m', rfl, hq⟩ := quick_of_call hL hlow' hlt hhigh hmax hoff hrun
  have hzy : zs = ys :=
    cells_inj (hwithin.length_eq.trans (hq.within (Nat.zero_le _) (.inl rfl)).length_eq.symm)
      harray.symm
  have hfirst : ys[0]? = some (filled L 1) := hzy ▸ hwithin.before 0 hpos
  rw [← gap_eq hlow']
  refine hq.calm_above hcompares (indexed_of_lt hlow' hlt hhigh hoff) hpos rfl
    (fun i x hi _ hx => ?_) (fun i j x y hi _ hj _ hx hy => ?_) hfirst
  · rw [eq_filled hi hx, headD_filled hL, headD_filled hL]
    decide
  · rw [eq_filled hi hx, eq_filled hj hy]
    exact UInt8.le_refl _

/-- **Exactly when a call keeps to its range** whatever allocations fail: there is nothing to sort,
or two allocations for each item of the range but one succeed in a row, from the first one on or,
when the range starts with the array, from any one on. -/
theorem keepsRange_iff (hlow : 0 ≤ low) (hle : low ≤ high) (hhigh : high.toInt < n)
    (hmax : high.toInt + 1 < 2 ^ 31) (hoff : high.toInt * L < 2 ^ 32) :
    KeepsRange mallocOk L n low high ↔
      L = 0 ∨ low = high ∨ ∃ k, (low = 0 ∨ k = 0) ∧ Calm mallocOk k (2 * gap low high) := by
  constructor
  · intro hkeeps
    rw [or_iff_not_imp_left, or_iff_not_imp_left]
    intro hL hne
    have hlt : low < high := Int32.lt_of_le_of_ne hle hne
    have hLpos := Nat.pos_of_ne_zero hL
    by_cases hzero : low = 0
    · subst hzero
      obtain ⟨k, hk⟩ := hkeeps.calm_zero hLpos hlt hhigh hmax hoff
      exact ⟨k, .inl rfl, hk⟩
    · have hpos : 0 < low := Int32.lt_of_le_of_ne hlow (Ne.symm hzero)
      obtain ⟨n, rfl⟩ : ∃ n', n = n' + 1 := by
        have h0 : 0 ≤ high.toInt := Int32.le_iff_toInt_le.mp (Int32.le_trans hlow hle)
        exact Nat.exists_eq_succ_of_ne_zero (by omega)
      exact ⟨0, .inr rfl, hkeeps.calm_pos hLpos hpos hlt hhigh hmax hoff⟩
  · rintro (hL | rfl | ⟨k, hk, hcalm⟩)
    · exact keepsRange_of_done (.inl hL)
    · exact keepsRange_of_done (.inr (Int32.lt_irrefl))
    · by_cases hdone : L = 0 ∨ ¬ low < high
      · exact keepsRange_of_done hdone
      · rw [not_or, not_not] at hdone
        exact keepsRange_of_calm (Nat.pos_of_ne_zero hdone.1) hlow hdone.2 hhigh hmax hoff hk hcalm

/-- The last two of three items, with allocations that succeed from the second one on. -/
theorem keepsRange_iff_three :
    KeepsRange (· ≠ 0) 1 3 1 2 ↔
      1 = 0 ∨ (1 : Int32) = 2 ∨ ∃ k, ((1 : Int32) = 0 ∨ k = 0) ∧ Calm (· ≠ 0) k (2 * gap 1 2) :=
  keepsRange_iff (by decide) (by decide) (by decide) (by decide) (by decide)

/-- A call does not end when all allocations fail. -/
theorem hySortQuick_all_fail (hL : L ≠ 0) (hlow : 0 ≤ low) (hlt : low < high) (fuel : ℕ)
    (st : Sorting σ) :
    hySortQuick swapCb (fun _ => false) L fuel low high st = .error .rounds := by
  induction fuel generalizing low st with
  | zero => rfl
  | succ fuel ih =>
    have hneg : ¬ low < -1 - 1 := fun h => absurd (Int32.lt_of_le_of_lt hlow h) (by decide)
    rw [hySortQuick, if_neg hL, if_pos hlt, partition_first_fails rfl]
    simp only [bind, Except.bind]
    cases fuel with
    | zero => rfl
    | succ fuel =>
      rw [hySortQuick_done (.inr hneg)]
      exact ih (Int32.le_refl 0) (Int32.lt_of_le_of_lt hlow hlt) _

/-- **An item outside the range is moved**: with the first allocation failing, the call for the last
two of three items sorts all three; and with all of them failing a call does not end. -/
theorem item_outside_moved :
    ((hySortQuick (keyCb fun x => x.headD 0) (· ≠ 0) 1 9 1 2 ⟨[5, 1, 2], (), 0⟩).map
      Sorting.array).toOption = some [1, 2, 5] ∧
    ∀ fuel, hySortQuick (keyCb fun x => x.headD 0) (fun _ => false) 1 fuel 0 1 ⟨[5, 1], (), 0⟩ =
      .error .rounds :=
  ⟨by decide +kernel,
    fun fuel => hySortQuick_all_fail (by decide) (by decide) (by decide) fuel _⟩

end HyUtils.Sort
