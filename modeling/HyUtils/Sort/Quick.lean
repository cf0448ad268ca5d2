import HyUtils.Sort.Partition

/-!
# Quick sort

A call on a range does nothing, or parts the range and sorts its two sides, or fails to allocate and
then sorts the array from its first item up to the end of the range. What a call that ends has done
is a relation of the array before and after, without rounds, and ranges are half open: the index
`high` of the source is one below the end.

## Main definitions

* `Quick`: what a call that ends has done
* `Calm mallocOk m n`: the next `n` allocations succeed
* `upTo r`: the index below the end `r` of a range

## Main results

* `quick_of_run`, `Quick.run`: a call ends exactly as the relation says
* `Quick.within`: the items of the range are rearranged
* `Quick.sorted`: the range is sorted, when the comparison is consistent with a total preorder
* `quick_exists`: a call whose allocations succeed ends, when the signs of the answers depend on
  the items only
-/

namespace HyUtils.Sort

open Region Items Rearrange Runs

variable {σ : Type} {L : ℕ} {swapCb : HySortSwapCb σ} {mallocOk : ℕ → Bool}
  {xs ys : List (Item UInt8 L)} {l r b m m' : ℕ} {cb cb' : σ}

/-! ## Ends of ranges -/

/-- The index below the end of a range. -/
def upTo (r : ℕ) : Int32 := Int32.ofNat r - 1

theorem upTo_of_pos (h : 0 < r) : upTo r = Int32.ofNat (r - 1) := by
  obtain ⟨k, rfl⟩ := Nat.exists_eq_succ_of_ne_zero h.ne'
  exact ofNat_succ_sub_one k

theorem toInt_upTo (h : r < 2 ^ 31) : (upTo r).toInt = r - 1 := by
  rcases Nat.eq_zero_or_pos r with rfl | hpos
  · rfl
  · rw [upTo_of_pos hpos, Int32.toInt_ofNat_of_lt (by omega)]
    omega

theorem ofNat_lt_upTo (hl : l < 2 ^ 31) (hr : r < 2 ^ 31) :
    Int32.ofNat l < upTo r ↔ l + 1 < r := by
  rw [Int32.lt_iff_toInt_lt, Int32.toInt_ofNat_of_lt hl, toInt_upTo hr]
  omega

/-! ## Calls that end -/

/-- What a call on the items from `l` up to `r` has done when it ends, with the state of the
comparison function and the number of allocations. -/
inductive Quick (swapCb : HySortSwapCb σ) (mallocOk : ℕ → Bool) :
    ℕ → ℕ → List (Item UInt8 L) → σ → ℕ → List (Item UInt8 L) → σ → ℕ → Prop
  | done {l r : ℕ} {xs : List (Item UInt8 L)} {cb : σ} {m : ℕ} (h : r ≤ l + 1) :
      Quick swapCb mallocOk l r xs cb m xs cb m
  | fail {l r : ℕ} {xs ys : List (Item UInt8 L)} {cb cb' : σ} {m m₁ m' : ℕ} (h : l + 1 < r)
      (hpart : ∃ fuel, partition swapCb mallocOk (UInt32.ofNat L) fuel (Int32.ofNat l)
        (Int32.ofNat (r - 1)) ⟨cells xs, cb, m⟩ = .ok (-1, ⟨cells xs, cb, m₁ + 1⟩))
      (hfail : mallocOk m₁ = false) (hlow : m ≤ m₁) (hhigh : m₁ ≤ m + 1)
      (rest : Quick swapCb mallocOk 0 r xs cb (m₁ + 1) ys cb' m') :
      Quick swapCb mallocOk l r xs cb m ys cb' m'
  | split {l r p : ℕ} {xs ys zs ws : List (Item UInt8 L)} {v : Item UInt8 L} {cb cb₁ cb₂ cb₃ : σ}
      {m m₂ m₃ : ℕ} (h : l + 1 < r)
      (hpart : ∃ fuel, partition swapCb mallocOk (UInt32.ofNat L) fuel (Int32.ofNat l)
        (Int32.ofNat (r - 1)) ⟨cells xs, cb, m⟩ = .ok (Int32.ofNat p, ⟨cells ys, cb₁, m + 2⟩))
      (h₁ : mallocOk m = true) (h₂ : mallocOk (m + 1) = true)
      (hparted : Parted swapCb l r xs p v ys)
      (left : Quick swapCb mallocOk l p ys cb₁ (m + 2) zs cb₂ m₂)
      (right : Quick swapCb mallocOk (p + 1) r zs cb₂ m₂ ws cb₃ m₃) :
      Quick swapCb mallocOk l r xs cb m ws cb₃ m₃

/-- Nothing is done to items without bytes, and to a range of at most one item. -/
theorem hySortQuick_done {fuel : ℕ} {low high : Int32} {st : Sorting σ}
    (h : L = 0 ∨ ¬ low < high) : hySortQuick swapCb mallocOk L (fuel + 1) low high st = .ok st := by
  rw [hySortQuick]
  split_ifs with hL hlt
  · rfl
  · exact absurd hlt (h.resolve_left hL)
  · rfl

/-- Such a call ends at once. -/
theorem ends_of_done {low high : Int32} (h : L = 0 ∨ ¬ low < high) (st : Sorting σ) :
    ∃ rounds, ∀ fuel ≥ rounds, hySortQuick swapCb mallocOk L fuel low high st = .ok st := by
  refine ⟨1, fun fuel hfuel => ?_⟩
  obtain ⟨fuel, rfl⟩ := Nat.exists_eq_add_of_le' hfuel
  exact hySortQuick_done h

theorem eq_of_done {fuel : ℕ} {low high : Int32} {st st' : Sorting σ} (h : L = 0 ∨ ¬ low < high)
    (hrun : hySortQuick swapCb mallocOk L fuel low high st = .ok st') : st' = st := by
  cases fuel with
  | zero => cases hrun
  | succ fuel => exact (Except.ok.inj ((hySortQuick_done h).symm.trans hrun)).symm

theorem hySortQuick_succ {fuel : ℕ} (hL : 0 < L) (hlr : l + 1 < r) (hr : r < 2 ^ 31)
    (st : Sorting σ) :
    hySortQuick swapCb mallocOk L (fuel + 1) (Int32.ofNat l) (upTo r) st =
      partition swapCb mallocOk (UInt32.ofNat L) fuel (Int32.ofNat l) (Int32.ofNat (r - 1)) st >>=
        fun res => hySortQuick swapCb mallocOk L fuel (Int32.ofNat l) (res.1 - 1) res.2 >>=
          hySortQuick swapCb mallocOk L fuel (res.1 + 1) (upTo r) := by
  rw [hySortQuick, if_neg hL.ne', if_pos ((ofNat_lt_upTo (by omega) hr).mpr hlr),
    upTo_of_pos (by omega)]

/-- The first of the two calls after a failure does nothing. -/
theorem not_lt_of_failed (hl : l < 2 ^ 31) : ¬ Int32.ofNat l < -1 - 1 := by
  rw [Int32.lt_iff_toInt_lt, Int32.toInt_ofNat_of_lt hl, show (-1 - 1 : Int32).toInt = -2 from rfl]
  omega

theorem Parted.length_eq {p : ℕ} {v : Item UInt8 L} (h : Parted swapCb l r xs p v ys) :
    ys.length = xs.length := h.within.length_eq

/-- **A call that ends** has done what the relation says. -/
theorem quick_of_run {fuel : ℕ} {st : Sorting σ} (hL : 0 < L)
    (hx : Indexed (UInt32.ofNat L) r xs) (hl : l < 2 ^ 31) (hr : r < 2 ^ 31)
    (hrun : hySortQuick swapCb mallocOk L fuel (Int32.ofNat l) (upTo r) ⟨cells xs, cb, m⟩ =
      .ok st) :
    ∃ ys cb' m', st = ⟨cells ys, cb', m'⟩ ∧ ys.length = xs.length ∧
      Quick swapCb mallocOk l r xs cb m ys cb' m' := by
  induction fuel generalizing l r xs cb m st with
  | zero => cases hrun
  | succ fuel ih =>
    by_cases hlr : l + 1 < r
    · rw [hySortQuick_succ hL hlr hr] at hrun
      obtain ⟨⟨position, st₁⟩, hpart, hrun⟩ := bind_eq_ok.mp hrun
      obtain ⟨st₂, hleft, hright⟩ := bind_eq_ok.mp hrun
      dsimp only at hleft hright
      rcases partition_cases hx hlr hpart with
        ⟨m₁, rfl, rfl, hfail, hlow, hhigh⟩ | ⟨h₁, h₂, p, v, zs, cb₁, rfl, rfl, hparted⟩
      · obtain rfl := eq_of_done (.inr (not_lt_of_failed hl)) hleft
        obtain ⟨ys, cb', m', rfl, hlen, hquick⟩ := ih (l := 0) hx (by decide) hr hright
        exact ⟨ys, cb', m', rfl, hlen, .fail hlr ⟨fuel, hpart⟩ hfail hlow hhigh hquick⟩
      · have hpr := hparted.upper
        have hzs := hx.congr hparted.length_eq
        obtain ⟨ys, cb₂, m₂, rfl, hlen, hquick⟩ := ih (r := p) (hzs.mono hpr.le) hl (by omega)
          hleft
        rw [← show Int32.ofNat (p + 1) = Int32.ofNat p + 1 from Int32.ofNat_add p 1] at hright
        obtain ⟨ws, cb₃, m₃, rfl, hlen', hquick'⟩ := ih (hzs.congr hlen) (by omega) hr hright
        exact ⟨ws, cb₃, m₃, rfl, (hlen'.trans hlen).trans hparted.length_eq,
          .split hlr ⟨fuel, hpart⟩ h₁ h₂ hparted hquick hquick'⟩
    · rw [hySortQuick_done (.inr (mt (ofNat_lt_upTo hl hr).mp hlr))] at hrun
      cases hrun
      exact ⟨xs, cb, m, rfl, rfl, .done (by omega)⟩

/-- **What the relation says** is done by a call, with rounds enough. -/
theorem Quick.run (hL : 0 < L) (hq : Quick swapCb mallocOk l r xs cb m ys cb' m')
    (hl : l < 2 ^ 31) (hr : r < 2 ^ 31) :
    ∃ rounds, ∀ fuel ≥ rounds, hySortQuick swapCb mallocOk L fuel (Int32.ofNat l) (upTo r)
      ⟨cells xs, cb, m⟩ = .ok ⟨cells ys, cb', m'⟩ := by
  induction hq with
  | done h => exact ends_of_done (.inr (mt (ofNat_lt_upTo hl hr).mp (by omega))) _
  | fail h hpart _ _ _ _ ih =>
    obtain ⟨fuel₁, hpart⟩ := hpart
    obtain ⟨fuel₂, hrest⟩ := ih (by decide) hr
    refine ⟨max fuel₁ fuel₂ + 2, fun fuel hfuel => ?_⟩
    obtain ⟨fuel, rfl⟩ := Nat.exists_eq_add_of_le' (show 2 ≤ fuel by omega)
    rw [hySortQuick_succ hL h hr]
    refine bind_eq_ok.mpr ⟨_, partition_mono (by omega) hpart,
      bind_eq_ok.mpr ⟨_, hySortQuick_done (.inr (not_lt_of_failed hl)), ?_⟩⟩
    dsimp only
    rw [show (-1 + 1 : Int32) = Int32.ofNat 0 by decide]
    exact hrest (fuel + 1) (by omega)
  | split h hpart _ _ hparted _ _ ihleft ihright =>
    have hpr := hparted.upper
    obtain ⟨fuel₁, hpart⟩ := hpart
    obtain ⟨fuel₂, hleft⟩ := ihleft hl (by omega)
    obtain ⟨fuel₃, hright⟩ := ihright (by omega) hr
    refine ⟨max fuel₁ (max fuel₂ fuel₃) + 1, fun fuel hfuel => ?_⟩
    obtain ⟨fuel, rfl⟩ := Nat.exists_eq_add_of_le' (show 1 ≤ fuel by omega)
    rw [hySortQuick_succ hL h hr]
    refine bind_eq_ok.mpr ⟨_, partition_mono (by omega) hpart,
      bind_eq_ok.mpr ⟨_, hleft fuel (by omega), ?_⟩⟩
    have hright' := hright fuel (by omega)
    rw [Int32.ofNat_add] at hright'
    exact hright'

/-! ## Allocations -/

/-- The next `n` allocations after `m` succeed. -/
def Calm (mallocOk : ℕ → Bool) (m n : ℕ) : Prop := ∀ i < n, mallocOk (m + i) = true

theorem Calm.mono {n m₁ n₁ : ℕ} (h : Calm mallocOk m n) (hm : m ≤ m₁) (hn : m₁ + n₁ ≤ m + n) :
    Calm mallocOk m₁ n₁ := by
  intro i hi
  rw [show m₁ + i = m + (m₁ - m + i) by omega]
  exact h _ (by omega)

theorem Calm.not_fail {n m₁ : ℕ} (h : Calm mallocOk m n) (hm : m ≤ m₁) (hn : m₁ < m + n)
    (hfail : mallocOk m₁ = false) : False := by
  have hok := h (m₁ - m) (by omega)
  rw [show m + (m₁ - m) = m₁ by omega, hfail] at hok
  cases hok

/-- The allocations that are left for the first call after a partition. -/
theorem Calm.left {p : ℕ} (h : Calm mallocOk m (2 * (r - 1 - l))) (hpr : p < r)
    (hlr : l + 1 < r) : Calm mallocOk (m + 2) (2 * (p - 1 - l)) :=
  h.mono (by omega) (by omega)

/-- A call that ends has made no fewer allocations, and two for each item but one at most when
none of them failed. -/
theorem Quick.mallocs (hq : Quick swapCb mallocOk l r xs cb m ys cb' m') :
    m ≤ m' ∧ (Calm mallocOk m (2 * (r - 1 - l)) → m' ≤ m + 2 * (r - 1 - l)) := by
  induction hq with
  | done h => exact ⟨le_rfl, fun _ => Nat.le_add_right _ _⟩
  | fail h _ hfail hlow hhigh _ ih =>
    exact ⟨by omega, fun hcalm => (hcalm.not_fail hlow (by omega) hfail).elim⟩
  | split h _ _ _ hparted _ _ ihleft ihright =>
    have hlp := hparted.lower
    have hpr := hparted.upper
    refine ⟨by omega, fun hcalm => ?_⟩
    have hleft := ihleft.2 (hcalm.left hpr h)
    have hright := ihright.2 (hcalm.mono (by omega) (by omega))
    omega

/-- The allocations that are left for the second call. -/
theorem Calm.right {p m₂ : ℕ} {zs : List (Item UInt8 L)} {cb₁ cb₂ : σ}
    (h : Calm mallocOk m (2 * (r - 1 - l))) (hlp : l ≤ p) (hpr : p < r) (hlr : l + 1 < r)
    (left : Quick swapCb mallocOk l p ys cb₁ (m + 2) zs cb₂ m₂) :
    Calm mallocOk m₂ (2 * (r - 1 - (p + 1))) := by
  have hmore := left.mallocs.1
  have hmost := left.mallocs.2 (h.left hpr hlr)
  exact h.mono (by omega) (by omega)

/-! ## What is kept -/

/-- **The items of the range are rearranged**, those of the array from its start on when an
allocation may fail. -/
theorem Quick.within (hq : Quick swapCb mallocOk l r xs cb m ys cb' m') (hb : b ≤ l)
    (hbase : b = 0 ∨ Calm mallocOk m (2 * (r - 1 - l))) : Within b r xs ys := by
  induction hq with
  | done h => exact .refl ..
  | fail h _ hfail hlow hhigh _ ih =>
    rcases hbase with rfl | hcalm
    · exact ih le_rfl (.inl rfl)
    · exact (hcalm.not_fail hlow (by omega) hfail).elim
  | split h _ _ _ hparted left right ihleft ihright =>
    have hlp := hparted.lower
    have hpr := hparted.upper
    have hleft := ihleft hb (hbase.imp_right fun hcalm => hcalm.left hpr h)
    have hright := ihright (by omega) (hbase.imp_right fun hcalm => hcalm.right hlp hpr h left)
    exact (hparted.within.mono hb le_rfl).trans ((hleft.mono le_rfl hpr.le).trans hright)

/-! ## Order -/

section Order

variable {le : Item UInt8 L → Item UInt8 L → Prop}

open Classical in
/-- The answers of a comparison function that is consistent with a total preorder. -/
theorem Compares.answers (h : Compares swapCb le) :
    ∃ f, Answers swapCb f ∧ (∀ x y, f x y ≤ 0 ↔ le x y) ∧ ∀ x y, 0 ≤ f x y ↔ le y x := by
  refine ⟨fun x y => if le x y then if le y x then 0 else -1 else 1, ⟨?_, ?_⟩, ?_, ?_⟩
  · intro cb x y
    rw [← Int32.not_le, h.nonneg_iff]
    by_cases hxy : le x y <;> by_cases hyx : le y x <;> simp [hxy, hyx]
    exact ((h.total x y).elim hxy hyx).elim
  · intro cb x y
    rw [← Int32.not_le, h.nonpos_iff]
    by_cases hxy : le x y <;> by_cases hyx : le y x <;> simp [hxy, hyx]
  · intro x y
    by_cases hxy : le x y <;> by_cases hyx : le y x <;> simp [hxy, hyx]
  · intro x y
    by_cases hxy : le x y <;> by_cases hyx : le y x <;> simp [hxy, hyx]
    exact ((h.total x y).elim hxy hyx).elim

/-- The items from `b` up to `l` are below those from `l` up to `r`. -/
def Below (le : Item UInt8 L → Item UInt8 L → Prop) (b l r : ℕ) (xs : List (Item UInt8 L)) : Prop :=
  ∀ i j x y, b ≤ i → i < l → l ≤ j → j < r → xs[i]? = some x → xs[j]? = some y → le x y

theorem Below.of_le (h : l ≤ b) : Below le b l r xs := by
  intro i j x y hbi hil
  omega

theorem Below.of_within (h : Below le b l r xs) (hwithin : Within l r xs ys) :
    Below le b l r ys := by
  intro i j x y hbi hil hlj hjr hi hj
  rw [hwithin.before i hil] at hi
  exact hwithin.forall_mem (P := le x) (fun k z hlk hkr hk => h i k x z hbi hil hlk hkr hi hk)
    hlj hjr hj

/-- What the partition and the first call leave for the second one. -/
theorem below_pivot (h : Compares swapCb le) {p : ℕ} {v : Item UInt8 L} {zs : List (Item UInt8 L)}
    (hbelow : Below le b l r xs) (hparted : Parted swapCb l r xs p v ys)
    (hleft : Within b p ys zs) :
    zs[p]? = some v ∧ (∀ i x, b ≤ i → i < p → zs[i]? = some x → le x v) ∧
      ∀ j x, p < j → j < r → zs[j]? = some x → le v x := by
  obtain ⟨f, hans, hnonpos, hnonneg⟩ := h.answers
  obtain ⟨hlow, hhigh⟩ := hparted.sides f hans
  have hlp := hparted.lower
  have hpr := hparted.upper
  refine ⟨(hleft.after p le_rfl).trans hparted.pivot, fun i x hbi hip hi => ?_,
    fun j x hpj hjr hj => ?_⟩
  · -- an item below the range, or one that the scans have passed
    refine hleft.forall_mem (P := (le · v)) (fun k y hbk hkp hk => ?_) hbi hip hi
    rcases Nat.lt_or_ge k l with hkl | hlk
    · rw [hparted.within.before k hkl] at hk
      exact hbelow k l y v hbk hkl le_rfl (by omega) hk hparted.first
    · exact (hnonpos y v).mp (hlow k y hlk hkp hk)
  · rw [hleft.after j (by omega)] at hj
    exact (hnonneg x v).mp (hhigh j x hpj hjr hj)

/-- **The range is sorted**, together with what is in order below it. -/
theorem Quick.sorted (h : Compares swapCb le) (hq : Quick swapCb mallocOk l r xs cb m ys cb' m')
    (hb : b ≤ l) (hbase : b = 0 ∨ Calm mallocOk m (2 * (r - 1 - l))) (hs : SortedOn le b l xs)
    (hbelow : Below le b l r xs) : SortedOn le b r ys := by
  have := h.isTrans
  induction hq with
  | done hr =>
    intro i j x y hbi hij hjr hi hj
    rcases Nat.lt_or_ge j _ with hjl | hlj
    · exact hs i j x y hbi hij hjl hi hj
    · exact hbelow i j x y hbi (by omega) hlj hjr hi hj
  | fail hlr _ hfail hlow hhigh _ ih =>
    rcases hbase with rfl | hcalm
    · -- the array is sorted from its first item on
      exact ih le_rfl (.inl rfl) (.of_le (by omega)) (.of_le le_rfl)
    · exact (hcalm.not_fail hlow (by omega) hfail).elim
  | split hlr _ _ _ hparted left right ihleft ihright =>
    have hlp := hparted.lower
    have hpr := hparted.upper
    have hbase₁ := hbase.imp_right fun hcalm => hcalm.left hpr hlr
    have hbase₂ := hbase.imp_right fun hcalm => hcalm.right hlp hpr hlr left
    -- the first call sorts what is below the pivot
    have hsorted₁ := ihleft hb hbase₁
      (hs.congr fun i _ hil => hparted.within.before i hil)
      fun i j x y hbi hil hlj hjp =>
        hbelow.of_within hparted.within i j x y hbi hil hlj (by omega)
    obtain ⟨hpivot, hle, hge⟩ := below_pivot h hbelow hparted (left.within hb hbase₁)
    -- the second one what is above it
    refine ihright (by omega) hbase₂
      (hsorted₁.join (.of_le (by omega)) hpivot hle fun i x _ _ => by omega) ?_
    intro i j x y hbi hip hpj hjr hi hj
    have hvy := hge j y hpj hjr hj
    rcases Nat.lt_or_ge i _ with hlt | hge'
    · exact h.trans x _ y (hle i x hbi hlt hi) hvy
    · obtain rfl : i = _ := Nat.le_antisymm (Nat.le_of_lt_succ hip) hge'
      obtain rfl := Option.some.inj (hpivot.symm.trans hi)
      exact hvy

end Order

/-! ## Ends -/

variable (cb) in
/-- **A call whose allocations succeed ends**, when the signs of the answers depend on the items
only. -/
theorem quick_exists {f : Item UInt8 L → Item UInt8 L → Int32} (hans : Answers swapCb f)
    (hx : Indexed (UInt32.ofNat L) r xs) (hcalm : Calm mallocOk m (2 * (r - 1 - l))) :
    ∃ ys cb' m', Quick swapCb mallocOk l r xs cb m ys cb' m' := by
  -- Induction on the length of the range.
  induction hn : r - l using Nat.strong_induction_on generalizing l r xs cb m with
  | _ n ih =>
    subst hn
    by_cases hlr : l + 1 < r
    · obtain ⟨position, st, hpart⟩ := partition_ends cb mallocOk m hans hx hlr le_rfl
      rcases partition_cases hx hlr hpart with
        ⟨m₁, rfl, rfl, hfail, hlow, hhigh⟩ | ⟨h₁, h₂, p, v, ys, cb₁, rfl, rfl, hparted⟩
      · exact (hcalm.not_fail hlow (by omega) hfail).elim
      · have hlp := hparted.lower
        have hpr := hparted.upper
        have hys := hx.congr hparted.length_eq
        obtain ⟨zs, cb₂, m₂, hleft⟩ := ih (p - l) (by omega) cb₁ (hys.mono hpr.le)
          (hcalm.left hpr hlr) rfl
        have hzs := hys.congr (hleft.within (b := l) le_rfl
          (.inr (hcalm.left hpr hlr))).length_eq
        obtain ⟨ws, cb₃, m₃, hright⟩ := ih (r - (p + 1)) (by omega) cb₂ hzs
          (hcalm.right hlp hpr hlr hleft) rfl
        exact ⟨ws, cb₃, m₃, .split hlr ⟨_, hpart⟩ h₁ h₂ hparted hleft hright⟩
    · exact ⟨xs, cb, m, .done (by omega)⟩

/-! ## The function -/

/-- The end of the range that has `high` as its last index. -/
def endOf (high : Int32) : ℕ := (high.toInt + 1).toNat

theorem upTo_endOf {high : Int32} (h : -1 ≤ high.toInt) (hmax : high.toInt + 1 < 2 ^ 31) :
    upTo (endOf high) = high := by
  rw [← Int32.toInt_inj, toInt_upTo (by rw [endOf]; omega), endOf]
  omega

theorem ofNat_toNatClampNeg {low : Int32} (h : 0 ≤ low) :
    Int32.ofNat low.toNatClampNeg = low := Int32.ofNat_toNatClampNeg low h

/-- The indexes of the items from `low` up to `high`, with offsets of 32 bits. -/
theorem indexed_of_lt {low high : Int32} (hlow : 0 ≤ low) (hlt : low < high)
    (hhigh : high.toInt < xs.length) (hoff : high.toInt * L < 2 ^ 32) :
    Indexed (UInt32.ofNat L) (endOf high) xs := by
  have h0 : 0 ≤ low.toInt := Int32.le_iff_toInt_le.mp hlow
  have h1 : 1 ≤ high.toInt := by
    have := Int32.lt_iff_toInt_lt.mp hlt
    omega
  have hmax := high.toInt_le
  obtain ⟨k, hk⟩ : ∃ k : ℕ, high.toInt = k := ⟨high.toInt.toNat, by omega⟩
  rw [hk] at hoff h1 hhigh
  have hend : endOf high = k + 1 := by rw [endOf, hk]; omega
  have hoff' : k * L < 2 ^ 32 := by exact_mod_cast hoff
  have hL : L < 2 ^ 32 := by
    have : 1 * L ≤ k * L := Nat.mul_le_mul_right L (by omega)
    omega
  refine ⟨?_, ?_, by omega, fun i hi => ?_⟩
  · rw [UInt32.toNat_ofNat', Nat.mod_eq_of_lt hL]
  · have : high.toInt ≤ 2 ^ 31 - 1 := hmax
    omega
  · have : i * L ≤ k * L := Nat.mul_le_mul_right L (by omega)
    omega

/-- Items without bytes are all the same. -/
theorem sortedOn_zero {le : Item UInt8 0 → Item UInt8 0 → Prop} (hrefl : ∀ x, le x x)
    (xs : List (Item UInt8 0)) : SortedOn le l r xs := by
  intro i j x y _ _ _ _ _
  have hxy : x = y :=
    Subtype.ext ((List.length_eq_zero_iff.mp x.2).trans (List.length_eq_zero_iff.mp y.2).symm)
  exact hxy ▸ hrefl x

variable {low high : Int32}

/-- A call on the array that ends is one on the items from `low` on. -/
theorem quick_of_call {fuel : ℕ} {st : Sorting σ} (hL : 0 < L) (hlow : 0 ≤ low) (hlt : low < high)
    (hhigh : high.toInt < xs.length) (hmax : high.toInt + 1 < 2 ^ 31)
    (hoff : high.toInt * L < 2 ^ 32)
    (hrun : hySortQuick swapCb mallocOk L fuel low high ⟨cells xs, cb, m⟩ = .ok st) :
    ∃ ys cb' m', st = ⟨cells ys, cb', m'⟩ ∧
      Quick swapCb mallocOk low.toNatClampNeg (endOf high) xs cb m ys cb' m' := by
  have h0 : 0 ≤ low.toInt := Int32.le_iff_toInt_le.mp hlow
  have h1 := Int32.lt_iff_toInt_lt.mp hlt
  rw [← upTo_endOf (by omega) hmax, ← ofNat_toNatClampNeg hlow] at hrun
  obtain ⟨ys, cb', m', hst, -, hq⟩ := quick_of_run hL (indexed_of_lt hlow hlt hhigh hoff)
    low.toNatClampNeg_lt (by rw [endOf]; omega) hrun
  exact ⟨ys, cb', m', hst, hq⟩

theorem Quick.call (hL : 0 < L) (hlow : 0 ≤ low) (hlt : low < high) (hmax : high.toInt + 1 < 2 ^ 31)
    (hq : Quick swapCb mallocOk low.toNatClampNeg (endOf high) xs cb m ys cb' m') :
    ∃ rounds, ∀ fuel ≥ rounds, hySortQuick swapCb mallocOk L fuel low high ⟨cells xs, cb, m⟩ =
      .ok ⟨cells ys, cb', m'⟩ := by
  have h0 : 0 ≤ low.toInt := Int32.le_iff_toInt_le.mp hlow
  have h1 := Int32.lt_iff_toInt_lt.mp hlt
  have hrun := hq.run hL low.toNatClampNeg_lt (by rw [endOf]; omega)
  rwa [upTo_endOf (by omega) hmax, ofNat_toNatClampNeg hlow] at hrun

/-- A range that is not of two items ends behind its start. -/
theorem endOf_le (hlow : 0 ≤ low) (h : ¬ low < high) : endOf high ≤ low.toNatClampNeg + 1 := by
  have h0 : 0 ≤ low.toInt := Int32.le_iff_toInt_le.mp hlow
  have h1 := mt Int32.lt_iff_toInt_lt.mpr h
  rw [endOf, ← Int32.toNat_toInt]
  omega

/-- What a call on the array leaves when it ends. -/
theorem hySortQuick_leaves (hlow : 0 ≤ low) (hhigh : high.toInt < xs.length)
    (hmax : high.toInt + 1 < 2 ^ 31) (hoff : high.toInt * L < 2 ^ 32)
    (hok : ∀ i, mallocOk i = true) {fuel : ℕ} {st : Sorting σ}
    (hrun : hySortQuick swapCb mallocOk L fuel low high ⟨cells xs, cb, m⟩ = .ok st) :
    ∃ ys, st.array = cells ys ∧ Within low.toNatClampNeg (endOf high) xs ys ∧
      ∀ le : Item UInt8 L → Item UInt8 L → Prop, Compares swapCb le →
        SortedOn le low.toNatClampNeg (endOf high) ys := by
  rcases Nat.eq_zero_or_pos L with rfl | hL
  · obtain rfl := eq_of_done (.inl rfl) hrun
    exact ⟨xs, rfl, .refl .., fun le h => sortedOn_zero h.refl xs⟩
  · by_cases hlt : low < high
    · obtain ⟨ys, cb', m', rfl, hq⟩ := quick_of_call hL hlow hlt hhigh hmax hoff hrun
      have hbase : low.toNatClampNeg = 0 ∨
          Calm mallocOk m (2 * (endOf high - 1 - low.toNatClampNeg)) := .inr fun i _ => hok _
      refine ⟨ys, rfl, hq.within le_rfl hbase, fun le h => ?_⟩
      exact hq.sorted h le_rfl hbase (.of_le (by omega)) (.of_le le_rfl)
    · obtain rfl := eq_of_done (.inr hlt) hrun
      exact ⟨xs, rfl, .refl .., fun le _ => .of_le (endOf_le hlow hlt)⟩

/-- A call on the array ends, when the signs of the answers depend on the items only. -/
theorem hySortQuick_ends (hlow : 0 ≤ low) (hhigh : high.toInt < xs.length)
    (hmax : high.toInt + 1 < 2 ^ 31) (hoff : high.toInt * L < 2 ^ 32)
    (hok : ∀ i, mallocOk i = true) {f : Item UInt8 L → Item UInt8 L → Int32}
    (hans : Answers swapCb f) :
    ∃ rounds, ∀ fuel ≥ rounds, ∃ st,
      hySortQuick swapCb mallocOk L fuel low high ⟨cells xs, cb, m⟩ = .ok st := by
  by_cases hdone : L = 0 ∨ ¬ low < high
  · obtain ⟨rounds, hrun⟩ := ends_of_done hdone ⟨cells xs, cb, m⟩
    exact ⟨rounds, fun fuel hfuel => ⟨_, hrun fuel hfuel⟩⟩
  · rw [not_or, not_not] at hdone
    obtain ⟨hL, hlt⟩ := hdone
    have hcalm : Calm mallocOk m (2 * (endOf high - 1 - low.toNatClampNeg)) := fun i _ => hok _
    obtain ⟨ys, cb', m', hq⟩ := quick_exists cb hans (indexed_of_lt hlow hlt hhigh hoff) hcalm
    obtain ⟨rounds, hrun⟩ := hq.call (Nat.pos_of_ne_zero hL) hlow hlt hmax
    exact ⟨rounds, fun fuel hfuel => ⟨_, hrun fuel hfuel⟩⟩

/-- **Quick sort**, with its allocations succeeding: when a call ends it has rearranged the items
of its range, and has sorted them if the comparison is consistent with a total preorder; and it
ends when the signs of the answers depend on the items only. -/
theorem hySortQuick_sorts (hlow : 0 ≤ low) (hhigh : high.toInt < xs.length)
    (hmax : high.toInt + 1 < 2 ^ 31) (hoff : high.toInt * L < 2 ^ 32)
    (hok : ∀ i, mallocOk i = true) :
    (∀ fuel st, hySortQuick swapCb mallocOk L fuel low high ⟨cells xs, cb, m⟩ = .ok st →
      ∃ ys, st.array = cells ys ∧ Within low.toNatClampNeg (endOf high) xs ys ∧
        ∀ le : Item UInt8 L → Item UInt8 L → Prop, Compares swapCb le →
          SortedOn le low.toNatClampNeg (endOf high) ys) ∧
    ∀ f : Item UInt8 L → Item UInt8 L → Int32, Answers swapCb f →
      ∃ rounds, ∀ fuel ≥ rounds, ∃ st,
        hySortQuick swapCb mallocOk L fuel low high ⟨cells xs, cb, m⟩ = .ok st :=
  ⟨fun _ _ => hySortQuick_leaves hlow hhigh hmax hoff hok,
    fun _ => hySortQuick_ends hlow hhigh hmax hoff hok⟩

/-- The comparison of 7 numbers of one byte. -/
theorem hySortQuick_sorts_seven :
    (∀ fuel st, hySortQuick (keyCb fun x => x.headD 0) (fun _ => true) 1 fuel 0 6
        ⟨cells ([3, 4, 1, 5, 8, 0, 9].map fun b => ⟨[b], rfl⟩ : List (Item UInt8 1)), (), 0⟩ =
          .ok st →
      ∃ ys, st.array = cells ys ∧ Within (0 : Int32).toNatClampNeg (endOf 6)
          ([3, 4, 1, 5, 8, 0, 9].map fun b => ⟨[b], rfl⟩ : List (Item UInt8 1)) ys ∧
        ∀ le : Item UInt8 1 → Item UInt8 1 → Prop, Compares (keyCb fun x => x.headD 0) le →
          SortedOn le (0 : Int32).toNatClampNeg (endOf 6) ys) ∧
    ∀ f : Item UInt8 1 → Item UInt8 1 → Int32, Answers (keyCb fun x => x.headD 0) f →
      ∃ rounds, ∀ fuel ≥ rounds, ∃ st,
        hySortQuick (keyCb fun x => x.headD 0) (fun _ => true) 1 fuel 0 6
          ⟨cells ([3, 4, 1, 5, 8, 0, 9].map fun b => ⟨[b], rfl⟩ : List (Item UInt8 1)), (), 0⟩ =
            .ok st :=
  hySortQuick_sorts (by decide) (by decide) (by decide) (by decide) fun _ => rfl

/-! ## Calls that do not end -/

/-- A comparison function that answers -1 and 1 by turns. -/
def alternatingCb : HySortSwapCb Bool := fun cb _ _ => (if cb then 1 else -1, !cb)

/-- Each scan is stopped at once, and the two exchanges cancel out. -/
theorem partitionLoop_alternating (fuel : ℕ) :
    partitionLoop alternatingCb 1 [0] fuel 0 1 [0, 1] false = .error .rounds := by
  induction fuel with
  | zero => rfl
  | succ fuel ih =>
    have hround : partitionLoop alternatingCb 1 [0] (fuel + 1) 0 1 [0, 1] false =
        partitionLoop alternatingCb 1 [0] fuel 0 1 [0, 1] false := rfl
    rw [hround, ih]

theorem hySortQuick_alternating (fuel : ℕ) :
    hySortQuick alternatingCb (fun _ => true) 1 fuel 0 1 ⟨[0, 1], false, 0⟩ = .error .rounds := by
  cases fuel with
  | zero => rfl
  | succ fuel =>
    have hpart : partition alternatingCb (fun _ => true) 1 fuel 0 1 ⟨[0, 1], false, 0⟩ =
        .error .rounds := by
      rw [partition, if_neg (by decide), if_neg (by decide)]
      have hitem : item [0, 1] 0 1 = .ok [0] := rfl
      simp only [hitem, bind, Except.bind, partitionLoop_alternating]
    rw [hySortQuick, if_neg (by decide), if_pos (by decide)]
    have hlen : UInt32.ofNat 1 = 1 := rfl
    simp only [hlen, hpart, bind, Except.bind]

/-- A comparison function that answers -1. -/
def belowCb : HySortSwapCb Unit := fun cb _ _ => (-1, cb)

theorem answers_belowCb : Answers belowCb fun _ _ : Item UInt8 L => -1 :=
  ⟨fun _ _ _ => Iff.rfl, fun _ _ _ => Iff.rfl⟩

/-- The index after the last one wraps, to one whose item is behind the array. -/
theorem item_wrapped {xs : List (Item UInt8 1)} (hlen : xs.length = 2 ^ 31) :
    item (cells xs) (Int32.ofNat (2 ^ 31 - 1) + 1) (UInt32.ofNat 1) = .error .fault := by
  have hnone : load (cells xs) (2 ^ 31) 1 = none := by
    rw [load, if_neg]
    rw [length_cells, hlen]
    decide
  rw [item, show offset (Int32.ofNat (2 ^ 31 - 1) + 1) (UInt32.ofNat 1) = 2 ^ 31 by decide,
    show (UInt32.ofNat 1).toNat = 1 by decide, hnone]
  rfl

/-- The pivot comes to the last index, and the index after it wraps. -/
theorem hySortQuick_overflow {xs : List (Item UInt8 1)} (hlen : xs.length = 2 ^ 31) (fuel : ℕ)
    (st : Sorting Unit) :
    hySortQuick belowCb (fun _ => true) 1 fuel (Int32.ofNat (2 ^ 31 - 2))
      (Int32.ofNat (2 ^ 31 - 1)) ⟨cells xs, (), 0⟩ ≠ .ok st := by
  intro hrun
  have hx : Indexed (UInt32.ofNat 1) (2 ^ 31) xs :=
    ⟨rfl, le_rfl, hlen.ge, fun i hi => by omega⟩
  cases fuel with
  | zero => cases hrun
  | succ fuel =>
    rw [hySortQuick, if_neg (by decide), if_pos (by decide)] at hrun
    obtain ⟨⟨position, st₁⟩, hpart, hrun⟩ := bind_eq_ok.mp hrun
    obtain ⟨st₂, hleft, hright⟩ := bind_eq_ok.mp hrun
    rcases partition_cases hx (by decide) hpart with
      ⟨m₁, -, -, hfail, -⟩ | ⟨-, -, p, v, ys, cb₁, rfl, rfl, hparted⟩
    · cases hfail
    · -- no item is above the pivot
      have hp : p = 2 ^ 31 - 1 := by
        have hpr := hparted.upper
        by_contra hne
        obtain ⟨x, hget⟩ := (hx.congr hparted.length_eq).get (show 2 ^ 31 - 1 < 2 ^ 31 by decide)
        have hpos := (hparted.sides _ answers_belowCb).2 _ x (by omega) (by decide) hget
        exact absurd (show (0 : Int32) ≤ -1 from hpos) (by decide)
      subst hp
      obtain rfl := eq_of_done (.inr (by decide)) hleft
      -- the second call starts at the least 32-bit number, behind the array
      have hitem := item_wrapped (hparted.length_eq.trans hlen)
      cases fuel with
      | zero => cases hright
      | succ fuel =>
        rw [hySortQuick, if_neg (by decide), if_pos (by decide), partition, if_neg (by decide),
          if_neg (by decide)] at hright
        simp only [hitem, bind, Except.bind] at hright
        cases hright

/-- **Two calls that do not sort**: a comparison function that does not answer by the items keeps
the first one going, and the second one leaves an array of `2 ^ 31` bytes. -/
theorem calls_without_end :
    (∀ fuel, hySortQuick alternatingCb (fun _ => true) 1 fuel 0 1 ⟨[0, 1], false, 0⟩ =
      .error .rounds) ∧
    ∀ fuel st, hySortQuick belowCb (fun _ => true) 1 fuel (Int32.ofNat (2 ^ 31 - 2))
      (Int32.ofNat (2 ^ 31 - 1))
      ⟨cells (List.replicate (2 ^ 31) (⟨[0], rfl⟩ : Item UInt8 1)), (), 0⟩ ≠ .ok st :=
  ⟨hySortQuick_alternating, hySortQuick_overflow List.length_replicate⟩

end HyUtils.Sort
