import HyUtils.Foundation.Run
import HyUtils.Sort.Access

/-!
# Partitioning a range

The loops of `_partition` exchange items of the range only, and the pivot is at `low` whenever the
outer loop looks at its condition, so that writing the copy of it back changes nothing. A round
moves `low` or `high`, when the signs of the answers depend on the two items only: the item that
stopped the first scan is the first that the second one looks at.

## Main definitions

* `Answers swapCb f`: the answers have the sign of a function of the two items
* `Indexed itemLen r xs`: 31 bits count the indexes below `r`, and 32 bits their offsets
* `Sides f v lo l h r xs`: the items passed by the two scans are on their sides of the pivot
* `Parted swapCb l r xs p v ys`: the range is parted at `p` by the pivot `v`

## Main results

* `partitionLoop_round`: one round of the outer loop
* `partitionLoop_parted`: what the loop leaves when it ends
* `partitionLoop_ends`: it ends, when the signs of the answers depend on the items only
-/

namespace HyUtils.Sort

open Region Items Rearrange Runs

variable {σ : Type} {L : ℕ} {swapCb : HySortSwapCb σ} {itemLen : UInt32}
  {xs ys : List (Item UInt8 L)} {v : Item UInt8 L} {lo l h r : ℕ} {cb : σ}

/-- The answers of the comparison function have the sign of a function of the two items. -/
structure Answers (swapCb : HySortSwapCb σ) (f : Item UInt8 L → Item UInt8 L → Int32) : Prop where
  neg_iff : ∀ cb (x y : Item UInt8 L), (swapCb cb x.1 y.1).1 < 0 ↔ f x y < 0
  pos_iff : ∀ cb (x y : Item UInt8 L), 0 < (swapCb cb x.1 y.1).1 ↔ 0 < f x y

theorem Answers.nonneg_iff {f : Item UInt8 L → Item UInt8 L → Int32} (h : Answers swapCb f) (cb : σ)
    (x y : Item UInt8 L) : 0 ≤ (swapCb cb x.1 y.1).1 ↔ 0 ≤ f x y := by
  rw [← Int32.not_lt, ← Int32.not_lt, h.neg_iff]

theorem Answers.nonpos_iff {f : Item UInt8 L → Item UInt8 L → Int32} (h : Answers swapCb f) (cb : σ)
    (x y : Item UInt8 L) : (swapCb cb x.1 y.1).1 ≤ 0 ↔ f x y ≤ 0 := by
  rw [← Int32.not_lt, ← Int32.not_lt, h.pos_iff]

/-- The indexes below `r` are indexes of items, and 32 bits are enough for their offsets. -/
structure Indexed (itemLen : UInt32) (r : ℕ) (xs : List (Item UInt8 L)) : Prop where
  itemLen : itemLen.toNat = L
  small : r ≤ 2 ^ 31
  length : r ≤ xs.length
  offset : ∀ i < r, i * L < 2 ^ 32

theorem Indexed.get (hx : Indexed itemLen r xs) {i : ℕ} (hi : i < r) : ∃ x, xs[i]? = some x :=
  ⟨_, List.getElem?_eq_getElem (Nat.lt_of_lt_of_le hi hx.length)⟩

theorem Indexed.congr (hx : Indexed itemLen r xs) (hlen : ys.length = xs.length) :
    Indexed itemLen r ys :=
  ⟨hx.itemLen, hx.small, hlen ▸ hx.length, hx.offset⟩

theorem Indexed.mono (hx : Indexed itemLen r xs) {r' : ℕ} (hr : r' ≤ r) : Indexed itemLen r' xs :=
  ⟨hx.itemLen, by have := hx.small; omega, hr.trans hx.length, fun i hi => hx.offset i (by omega)⟩

theorem Indexed.item (hx : Indexed itemLen r xs) {i : ℕ} (hi : i < r) {x : Item UInt8 L}
    (hget : xs[i]? = some x) : item (cells xs) (Int32.ofNat i) itemLen = .ok x.1 :=
  item_cells hx.itemLen (hx.offset i hi) (by have := hx.small; omega) hget

theorem Indexed.offset_eq (hx : Indexed itemLen r xs) {i : ℕ} (hi : i < r) :
    Sort.offset (Int32.ofNat i) itemLen = i * L := by
  have hoff := hx.offset i hi
  rw [offset_ofNat (by rwa [hx.itemLen]) (by have := hx.small; omega), hx.itemLen]

theorem Indexed.memSwap (hx : Indexed itemLen r xs) {i j : ℕ} (hi : i < r) (hj : j < r) :
    Sort.memSwap (cells xs) (Sort.offset (Int32.ofNat i) itemLen)
      (Sort.offset (Int32.ofNat j) itemLen) itemLen = some (cells (exchange xs i j)) := by
  obtain ⟨x, hxi⟩ := hx.get hi
  obtain ⟨y, hyj⟩ := hx.get hj
  rw [hx.offset_eq hi, hx.offset_eq hj]
  exact memSwap_cells hx.itemLen hxi hyj

/-! ## The scans -/

variable (swapCb v cb) in
/-- **The first scan** goes down over items that are not below the pivot. -/
theorem scanHigh_cells (hx : Indexed itemLen r xs) {k : ℕ} (hk : l + k < r) :
    ∃ m cb', scanHigh swapCb (cells xs) itemLen v.1 k (Int32.ofNat (l + k)) cb =
        .ok (Int32.ofNat m, cb') ∧ l ≤ m ∧ m ≤ l + k ∧
      ∀ f, Answers swapCb f →
        (∀ i x, m < i → i ≤ l + k → xs[i]? = some x → 0 ≤ f x v) ∧
        (m = l ∨ ∀ x, xs[m]? = some x → f x v < 0) := by
  induction k generalizing cb with
  | zero =>
    exact ⟨l, cb, rfl, le_rfl, le_rfl, fun f _ => ⟨fun i x _ _ => by omega, .inl rfl⟩⟩
  | succ k ih =>
    obtain ⟨x, hget⟩ := hx.get hk
    rw [scanHigh, hx.item hk hget]
    by_cases hc : 0 ≤ (swapCb cb x.1 v.1).1
    · obtain ⟨m, cb', hscan, hlm, hmk, hf⟩ := ih (swapCb cb x.1 v.1).2 (by omega)
      refine ⟨m, cb', ?_, hlm, by omega, fun f hans => ?_⟩
      · rw [← Nat.add_assoc, ofNat_succ_sub_one]
        simp only [bind, Except.bind, ge_iff_le, hc, if_true]
        exact hscan
      · obtain ⟨hpassed, hstop⟩ := hf f hans
        refine ⟨fun i y hmi hi hy => ?_, hstop⟩
        -- the item just passed, and those passed after it
        rcases Nat.lt_or_ge (l + k) i with hlt | hle
        · obtain rfl : i = l + (k + 1) := by omega
          obtain rfl := Option.some.inj (hget.symm.trans hy)
          exact (hans.nonneg_iff cb x v).mp hc
        · exact hpassed i y hmi hle hy
    · refine ⟨l + (k + 1), (swapCb cb x.1 v.1).2, ?_, by omega, le_rfl, fun f hans => ?_⟩
      · simp only [bind, Except.bind, ge_iff_le, hc, if_false]
      · refine ⟨fun i y hlt hle => by omega, .inr fun y hy => ?_⟩
        obtain rfl := Option.some.inj (hget.symm.trans hy)
        exact (hans.neg_iff cb x v).mp (Int32.not_le.mp hc)

variable (swapCb v cb) in
/-- **The second scan** goes up over items that are not above the pivot. -/
theorem scanLow_cells (hx : Indexed itemLen r xs) {k : ℕ} (hk : l + k < r) :
    ∃ m cb', scanLow swapCb (cells xs) itemLen v.1 k (Int32.ofNat l) cb =
        .ok (Int32.ofNat m, cb') ∧ l ≤ m ∧ m ≤ l + k ∧
      ∀ f, Answers swapCb f →
        (∀ i x, l ≤ i → i < m → xs[i]? = some x → f x v ≤ 0) ∧
        (m = l + k ∨ ∀ x, xs[m]? = some x → 0 < f x v) := by
  induction k generalizing l cb with
  | zero =>
    exact ⟨l, cb, rfl, le_rfl, le_rfl, fun f _ => ⟨fun i x _ _ => by omega, .inl rfl⟩⟩
  | succ k ih =>
    obtain ⟨x, hget⟩ := hx.get (show l < r by omega)
    rw [scanLow, hx.item (by omega) hget]
    by_cases hc : (swapCb cb x.1 v.1).1 ≤ 0
    · obtain ⟨m, cb', hscan, hlm, hmk, hf⟩ := ih (l := l + 1) (swapCb cb x.1 v.1).2 (by omega)
      refine ⟨m, cb', ?_, by omega, by omega, fun f hans => ?_⟩
      · simp only [bind, Except.bind, hc, if_true]
        rw [Int32.ofNat_add] at hscan
        exact hscan
      · obtain ⟨hpassed, hstop⟩ := hf f hans
        refine ⟨fun i y hli him hy => ?_, hstop.imp_left fun heq => by omega⟩
        rcases Nat.eq_or_lt_of_le hli with rfl | hlt
        · obtain rfl := Option.some.inj (hget.symm.trans hy)
          exact (hans.nonpos_iff cb x v).mp hc
        · exact hpassed i y hlt him hy
    · refine ⟨l, (swapCb cb x.1 v.1).2, ?_, le_rfl, by omega, fun f hans => ?_⟩
      · simp only [bind, Except.bind, hc, if_false]
      · refine ⟨fun i y hle hlt => by omega, .inr fun y hy => ?_⟩
        obtain rfl := Option.some.inj (hget.symm.trans hy)
        exact (hans.pos_iff cb x v).mp (Int32.not_le.mp hc)

/-! ## The outer loop -/

/-- The items that the scans have passed are on their sides of the pivot. -/
def Sides (f : Item UInt8 L → Item UInt8 L → Int32) (v : Item UInt8 L) (lo l h r : ℕ)
    (xs : List (Item UInt8 L)) : Prop :=
  (∀ i x, lo ≤ i → i < l → xs[i]? = some x → f x v ≤ 0) ∧
    ∀ i x, h < i → i < r → xs[i]? = some x → 0 ≤ f x v

/-- The items that the two scans of a round pass are added to those on the sides. -/
theorem Sides.round {f : Item UInt8 L → Item UInt8 L → Int32} {l' h' : ℕ}
    (hsides : Sides f v lo l h r xs) (hll' : l ≤ l') (hle : l' ≤ h')
    (hhigh : ∀ i x, h' < i → i ≤ h → xs[i]? = some x → 0 ≤ f x v)
    (hlow : ∀ i x, l ≤ i → i < l' → (exchange xs l h')[i]? = some x → f x v ≤ 0) :
    Sides f v lo l' h' r (exchange (exchange xs l h') h' l') := by
  constructor
  · intro i x hloi hil' hget
    rw [exchange_other (by omega) (by omega)] at hget
    rcases Nat.lt_or_ge i l with hlt | hge
    · rw [exchange_other (by omega) (by omega)] at hget
      exact hsides.1 i x hloi hlt hget
    · exact hlow i x hge hil' hget
  · intro i x hh'i hir hget
    rw [exchange_other (by omega) (by omega), exchange_other (by omega) (by omega)] at hget
    rcases Nat.lt_or_ge h i with hlt | hge
    · exact hsides.2 i x hlt hir hget
    · exact hhigh i x hh'i hge hget

theorem partitionLoop_end {tmp : List UInt8} {low high : Int32} {array : List UInt8} {fuel : ℕ}
    (hle : ¬ low < high) :
    partitionLoop swapCb itemLen tmp (fuel + 1) low high array cb = .ok (low, array, cb) :=
  if_neg hle

variable (swapCb cb) in
/-- **A round of the outer loop** leaves the pivot at `low`, and passes an item when the signs of
the answers depend on the items only. -/
theorem partitionLoop_round (hx : Indexed itemLen r xs) (hlo : lo ≤ l) (hlt : l < h) (hr : h < r)
    (hv : xs[l]? = some v) :
    ∃ l' h' ys cb', (∀ fuel, partitionLoop swapCb itemLen v.1 (fuel + 1) (Int32.ofNat l)
        (Int32.ofNat h) (cells xs) cb = partitionLoop swapCb itemLen v.1 fuel (Int32.ofNat l')
          (Int32.ofNat h') (cells ys) cb') ∧
      l ≤ l' ∧ l' ≤ h' ∧ h' ≤ h ∧ ys[l']? = some v ∧ Within l (h + 1) xs ys ∧
      ∀ f, Answers swapCb f → h' - l' < h - l ∧
        (Sides f v lo l h r xs → Sides f v lo l' h' r ys) ∧
        ((∀ i x, l < i → i < r → xs[i]? = some x → 0 ≤ f x v) → h' = l ∧ ys = xs) := by
  have hsmall := hx.small
  -- the first scan, and the exchange that takes the pivot to `high`
  obtain ⟨h', cb₁, hhigh, hlh', hh'h, hf₁⟩ := scanHigh_cells swapCb v cb (l := l) (k := h - l) hx
    (by omega)
  rw [Nat.add_sub_cancel' hlt.le] at hhigh hh'h hf₁
  obtain ⟨w, hw⟩ := hx.get (show h' < r by omega)
  have hx₁ : Indexed itemLen r (exchange xs l h') := hx.congr (exchange_perm hv hw).length_eq
  -- the second scan, and the exchange that takes it to `low`
  obtain ⟨l', cb₂, hlow, hll', hl'h', hf₂⟩ := scanLow_cells swapCb v cb₁ (l := l) (k := h' - l) hx₁
    (by omega)
  rw [Nat.add_sub_cancel' hlh'] at hl'h' hf₂
  obtain ⟨u, hu⟩ := hx₁.get (show l' < r by omega)
  have hv₁ : (exchange xs l h')[h']? = some v := exchange_right hv hw
  have hw₁ : (exchange xs l h')[l]? = some w := exchange_left hv hw
  refine ⟨l', h', exchange (exchange xs l h') h' l', cb₂, fun fuel => ?_, hll', hl'h', hh'h,
    exchange_right hv₁ hu, ?_, fun f hans => ?_⟩
  · rw [partitionLoop, if_pos ((Int32.ofNat_lt_iff_lt (by omega) (by omega)).mpr hlt),
      gap_ofNat (by omega) (by omega), hhigh]
    simp only [bind, Except.bind]
    rw [hx.memSwap (by omega) (by omega), access_some, gap_ofNat (by omega) (by omega)]
    simp only
    rw [hlow]
    simp only
    rw [hx₁.memSwap (by omega) (by omega), access_some]
  · exact (within_exchange hv hw (by omega) (by omega) (by omega) (by omega)).trans
      (within_exchange hv₁ hu (by omega) (by omega) (by omega) (by omega))
  · obtain ⟨hpassed₁, hstop₁⟩ := hf₁ f hans
    obtain ⟨hpassed₂, hstop₂⟩ := hf₂ f hans
    refine ⟨?_, fun hsides => hsides.round hll' hl'h' hpassed₁ hpassed₂, fun hge => ?_⟩
    · -- when the first scan stops at once, the second one passes the item that stopped it
      rcases Nat.lt_or_ge h' h with hlt' | hge
      · omega
      · have hneg : f w v < 0 := (hstop₁.resolve_left (by omega)) w hw
        have hne : l' ≠ l := by
          rintro rfl
          have hpos := (hstop₂.resolve_left (by omega)) w hw₁
          exact Int32.lt_irrefl (Int32.lt_trans hpos hneg)
        omega
    · -- nothing stops the first scan, and both exchanges are of an item with itself
      have hh' : h' = l := hstop₁.elim id fun hneg => by
        by_contra hne
        exact Int32.lt_irrefl (Int32.lt_of_lt_of_le (hneg w hw) (hge h' w (by omega) (by omega) hw))
      obtain rfl : l' = h' := by omega
      subst hh'
      exact ⟨rfl, by rw [exchange_self, exchange_self]⟩

/-- **When the loop ends**, the pivot is where the scans have met, and has the items on its sides.
-/
theorem partitionLoop_parted {fuel : ℕ} {res : Int32 × List UInt8 × σ} (hx : Indexed itemLen r xs)
    (hlo : lo ≤ l) (hle : l ≤ h) (hr : h < r) (hv : xs[l]? = some v)
    (hrun : partitionLoop swapCb itemLen v.1 fuel (Int32.ofNat l) (Int32.ofNat h) (cells xs) cb =
      .ok res) :
    ∃ p ys cb', res = (Int32.ofNat p, cells ys, cb') ∧ l ≤ p ∧ p ≤ h ∧ ys[p]? = some v ∧
      Within l (h + 1) xs ys ∧
      ∀ f, Answers swapCb f → Sides f v lo l h r xs → Sides f v lo p p r ys := by
  induction fuel generalizing l h xs cb with
  | zero => cases hrun
  | succ fuel ih =>
    have hsmall := hx.small
    rcases Nat.eq_or_lt_of_le hle with rfl | hlt
    · rw [partitionLoop_end (Int32.lt_irrefl)] at hrun
      cases hrun
      exact ⟨l, xs, cb, rfl, le_rfl, le_rfl, hv, .refl .., fun f _ hsides => hsides⟩
    · obtain ⟨l', h', ys, cb₁, hround, hll', hl'h', hh'h, hv', hwithin, hf⟩ :=
        partitionLoop_round swapCb cb hx hlo hlt hr hv
      rw [hround fuel] at hrun
      obtain ⟨p, zs, cb', rfl, hlp, hph, hp, hwithin', hf'⟩ :=
        ih (hx.congr hwithin.length_eq) (by omega) hl'h' (by omega) hv' hrun
      exact ⟨p, zs, cb', rfl, by omega, by omega, hp,
        hwithin.trans (hwithin'.mono hll' (by omega)),
        fun f hans hsides => hf' f hans ((hf f hans).2.1 hsides)⟩

variable (cb) in
/-- **The loop ends**, when the signs of the answers depend on the items only. -/
theorem partitionLoop_ends {fuel : ℕ} {f : Item UInt8 L → Item UInt8 L → Int32}
    (hans : Answers swapCb f) (hx : Indexed itemLen r xs) (hle : l ≤ h) (hr : h < r)
    (hv : xs[l]? = some v) (hfuel : h - l < fuel) :
    ∃ res, partitionLoop swapCb itemLen v.1 fuel (Int32.ofNat l) (Int32.ofNat h) (cells xs) cb =
      .ok res := by
  -- each round brings the two scans closer together
  induction fuel generalizing l h xs cb with
  | zero => omega
  | succ fuel ih =>
    rcases Nat.eq_or_lt_of_le hle with rfl | hlt
    · exact ⟨_, partitionLoop_end Int32.lt_irrefl⟩
    · obtain ⟨l', h', ys, cb₁, hround, hll', hl'h', hh'h, hv', hwithin, hf⟩ :=
        partitionLoop_round swapCb cb hx le_rfl hlt hr hv
      rw [hround fuel]
      have hcloser := (hf f hans).1
      exact ih cb₁ (hx.congr hwithin.length_eq) hl'h' (by omega) hv' (by omega)

/-- A pivot with nothing below it stays where it is. -/
theorem partitionLoop_first {fuel : ℕ} {res : Int32 × List UInt8 × σ}
    {f : Item UInt8 L → Item UInt8 L → Int32} (hans : Answers swapCb f) (hx : Indexed itemLen r xs)
    (hlt : l < h) (hr : h < r) (hv : xs[l]? = some v)
    (hge : ∀ i x, l < i → i < r → xs[i]? = some x → 0 ≤ f x v)
    (hrun : partitionLoop swapCb itemLen v.1 fuel (Int32.ofNat l) (Int32.ofNat h) (cells xs) cb =
      .ok res) : res.1 = Int32.ofNat l ∧ res.2.1 = cells xs := by
  cases fuel with
  | zero => cases hrun
  | succ fuel =>
    obtain ⟨l', h', ys, cb₁, hround, hll', hl'h', -, -, -, hf⟩ :=
      partitionLoop_round swapCb cb hx le_rfl hlt hr hv
    obtain ⟨rfl, rfl⟩ := (hf f hans).2.2 hge
    obtain rfl : l' = h' := by omega
    rw [hround fuel] at hrun
    cases fuel with
    | zero => cases hrun
    | succ fuel =>
      rw [partitionLoop_end Int32.lt_irrefl] at hrun
      cases hrun
      exact ⟨rfl, rfl⟩

/-- More rounds change nothing. -/
theorem partitionLoop_mono {tmp array : List UInt8} {fuel fuel' : ℕ} {low high : Int32}
    {res : Int32 × List UInt8 × σ} (hle : fuel ≤ fuel')
    (hrun : partitionLoop swapCb itemLen tmp fuel low high array cb = .ok res) :
    partitionLoop swapCb itemLen tmp fuel' low high array cb = .ok res := by
  induction fuel generalizing fuel' low high array cb with
  | zero => cases hrun
  | succ fuel ih =>
    obtain ⟨fuel', rfl⟩ := Nat.exists_eq_succ_of_ne_zero (by omega : fuel' ≠ 0)
    rw [partitionLoop] at hrun ⊢
    split_ifs at hrun ⊢ with hlt
    · obtain ⟨⟨high', cb₁⟩, hhigh, hrun⟩ := bind_eq_ok.mp hrun
      obtain ⟨array₁, hswap₁, hrun⟩ := bind_eq_ok.mp hrun
      obtain ⟨⟨low', cb₂⟩, hlow, hrun⟩ := bind_eq_ok.mp hrun
      obtain ⟨array₂, hswap₂, hrun⟩ := bind_eq_ok.mp hrun
      exact bind_eq_ok.mpr ⟨_, hhigh, bind_eq_ok.mpr ⟨_, hswap₁, bind_eq_ok.mpr ⟨_, hlow,
        bind_eq_ok.mpr ⟨_, hswap₂, ih (Nat.le_of_succ_le_succ hle) hrun⟩⟩⟩⟩
    · exact hrun

/-! ## The whole function -/

/-- The range is parted at `p` by the pivot `v`, the first of its items. -/
structure Parted (swapCb : HySortSwapCb σ) (l r : ℕ) (xs : List (Item UInt8 L)) (p : ℕ)
    (v : Item UInt8 L) (ys : List (Item UInt8 L)) : Prop where
  lower : l ≤ p
  upper : p < r
  first : xs[l]? = some v
  pivot : ys[p]? = some v
  within : Within l r xs ys
  sides : ∀ f, Answers swapCb f → Sides f v l p p r ys

variable {mallocOk : ℕ → Bool} {fuel mallocs : ℕ} {position : Int32} {st : Sorting σ}

theorem partition_first_fails {low high : Int32} (h : mallocOk st.mallocs = false) :
    partition swapCb mallocOk itemLen fuel low high st =
      .ok (-1, { st with mallocs := st.mallocs + 1 }) := by
  rw [partition, if_pos (by simp [h])]

theorem partition_second_fails {low high : Int32} (h₁ : mallocOk st.mallocs = true)
    (h₂ : mallocOk (st.mallocs + 1) = false) :
    partition swapCb mallocOk itemLen fuel low high st =
      .ok (-1, { st with mallocs := st.mallocs + 2 }) := by
  rw [partition, if_neg (by simp [h₁]), if_pos (by simp [h₂])]

/-- With both copies allocated `_partition` is its loop: the pivot is back already when it is
written back. -/
theorem partition_eq (hx : Indexed itemLen r xs) (hlr : l + 1 < r) (hv : xs[l]? = some v)
    (h₁ : mallocOk mallocs = true) (h₂ : mallocOk (mallocs + 1) = true) :
    partition swapCb mallocOk itemLen fuel (Int32.ofNat l) (Int32.ofNat (r - 1))
        ⟨cells xs, cb, mallocs⟩ =
      (partitionLoop swapCb itemLen v.1 fuel (Int32.ofNat l) (Int32.ofNat (r - 1)) (cells xs)
        cb).map fun res => (res.1, ⟨res.2.1, res.2.2, mallocs + 2⟩) := by
  rw [partition, if_neg (by simp [h₁]), if_neg (by simp [h₂])]
  dsimp only
  rw [hx.item (by omega) hv]
  cases hloop : partitionLoop swapCb itemLen v.1 fuel (Int32.ofNat l) (Int32.ofNat (r - 1))
      (cells xs) cb with
  | error stop => simp only [bind, Except.bind, hloop, Except.map]
  | ok res =>
    obtain ⟨p, ys, cb', rfl, hlp, hpr, hp, hwithin, -⟩ :=
      partitionLoop_parted hx le_rfl (by omega) (by omega) hv hloop
    have hstore := store_load (load_cells hp)
    simp only [bind, Except.bind, hloop, Except.map]
    rw [(hx.congr hwithin.length_eq).offset_eq (by omega), hstore]
    rfl

/-- **What `_partition` can do**: an allocation fails and the array is left alone, or the range is
parted. -/
theorem partition_cases (hx : Indexed itemLen r xs) (hlr : l + 1 < r)
    (hrun : partition swapCb mallocOk itemLen fuel (Int32.ofNat l) (Int32.ofNat (r - 1))
      ⟨cells xs, cb, mallocs⟩ = .ok (position, st)) :
    (∃ m, position = -1 ∧ st = ⟨cells xs, cb, m + 1⟩ ∧ mallocOk m = false ∧
      mallocs ≤ m ∧ m ≤ mallocs + 1) ∨
    (mallocOk mallocs = true ∧ mallocOk (mallocs + 1) = true ∧ ∃ p v ys cb',
      position = Int32.ofNat p ∧ st = ⟨cells ys, cb', mallocs + 2⟩ ∧
        Parted swapCb l r xs p v ys) := by
  cases h₁ : mallocOk mallocs with
  | false =>
    rw [partition_first_fails h₁] at hrun
    cases hrun
    exact .inl ⟨mallocs, rfl, rfl, h₁, le_rfl, by omega⟩
  | true =>
    cases h₂ : mallocOk (mallocs + 1) with
    | false =>
      rw [partition_second_fails h₁ h₂] at hrun
      cases hrun
      exact .inl ⟨mallocs + 1, rfl, rfl, h₂, by omega, le_rfl⟩
    | true =>
      obtain ⟨v, hv⟩ := hx.get (show l < r by omega)
      rw [partition_eq hx hlr hv h₁ h₂] at hrun
      cases hloop : partitionLoop swapCb itemLen v.1 fuel (Int32.ofNat l) (Int32.ofNat (r - 1))
          (cells xs) cb with
      | error stop =>
        rw [hloop] at hrun
        cases hrun
      | ok res =>
        obtain ⟨p, ys, cb', rfl, hlp, hpr, hp, hwithin, hf⟩ :=
          partitionLoop_parted hx le_rfl (by omega) (by omega) hv hloop
        rw [hloop] at hrun
        cases hrun
        rw [Nat.sub_add_cancel (by omega)] at hwithin
        -- at the start the scans have passed nothing
        have hstart : ∀ f, Sides f v l l (r - 1) r xs := fun f =>
          ⟨fun i x _ _ => by omega, fun i x _ _ => by omega⟩
        exact .inr ⟨rfl, rfl, p, v, ys, cb', rfl, rfl, hlp, by omega, hv, hp, hwithin,
          fun f hans => hf f hans (hstart f)⟩

variable (cb mallocOk mallocs) in
/-- `_partition` ends, when the signs of the answers depend on the items only. -/
theorem partition_ends {f : Item UInt8 L → Item UInt8 L → Int32} (hans : Answers swapCb f)
    (hx : Indexed itemLen r xs) (hlr : l + 1 < r) (hfuel : r ≤ fuel) :
    ∃ position st, partition swapCb mallocOk itemLen fuel (Int32.ofNat l) (Int32.ofNat (r - 1))
      ⟨cells xs, cb, mallocs⟩ = .ok (position, st) := by
  cases h₁ : mallocOk mallocs with
  | false => exact ⟨_, _, partition_first_fails h₁⟩
  | true =>
    cases h₂ : mallocOk (mallocs + 1) with
    | false => exact ⟨_, _, partition_second_fails h₁ h₂⟩
    | true =>
      obtain ⟨v, hv⟩ := hx.get (show l < r by omega)
      obtain ⟨res, hloop⟩ := partitionLoop_ends cb hans hx (show l ≤ r - 1 by omega)
        (by omega) hv (show r - 1 - l < fuel by omega)
      rw [partition_eq hx hlr hv h₁ h₂, hloop]
      exact ⟨_, _, rfl⟩

theorem partition_mono {fuel' : ℕ} {low high : Int32} {st' : Sorting σ} (hle : fuel ≤ fuel')
    (hrun : partition swapCb mallocOk itemLen fuel low high st = .ok (position, st')) :
    partition swapCb mallocOk itemLen fuel' low high st = .ok (position, st') := by
  rw [partition] at hrun ⊢
  split_ifs at hrun ⊢
  · obtain ⟨tmp, htmp, hrun⟩ := bind_eq_ok.mp hrun
    obtain ⟨res, hloop, hrun⟩ := bind_eq_ok.mp hrun
    exact bind_eq_ok.mpr ⟨tmp, htmp, bind_eq_ok.mpr ⟨res, partitionLoop_mono hle hloop, hrun⟩⟩
  · exact hrun
  · exact hrun

/-- A first item with nothing below it is its own place. -/
theorem partition_first {f : Item UInt8 L → Item UInt8 L → Int32} (hans : Answers swapCb f)
    (hx : Indexed itemLen r xs) (hlr : l + 1 < r) (hv : xs[l]? = some v)
    (h₁ : mallocOk mallocs = true) (h₂ : mallocOk (mallocs + 1) = true)
    (hge : ∀ i x, l < i → i < r → xs[i]? = some x → 0 ≤ f x v)
    (hrun : partition swapCb mallocOk itemLen fuel (Int32.ofNat l) (Int32.ofNat (r - 1))
      ⟨cells xs, cb, mallocs⟩ = .ok (position, st)) :
    position = Int32.ofNat l ∧ st.array = cells xs := by
  rw [partition_eq hx hlr hv h₁ h₂] at hrun
  cases hloop : partitionLoop swapCb itemLen v.1 fuel (Int32.ofNat l) (Int32.ofNat (r - 1))
      (cells xs) cb with
  | error stop =>
    rw [hloop] at hrun
    cases hrun
  | ok res =>
    rw [hloop] at hrun
    cases hrun
    exact partitionLoop_first hans hx (by omega) (by omega) hv hge hloop

end HyUtils.Sort
