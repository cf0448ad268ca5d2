import Mathlib.Data.List.Rotate
import HyUtils.Foundation.Region

/-!
# Circular buffers

A circular buffer is a region read and written from a cursor taken modulo its length, each
transfer in two pieces: up to the physical end, then from the start. Seen from its read cursor the
buffer is a rotation of the region, and the unread cells are a prefix of that rotation.

## Main definitions

* `window buf out n`: the `n` cells from the cursor `out` on
* `copyOut dst buf i k`, `copyIn buf i src k`: the two-piece transfers at the physical index `i`
* `Carries buf s lo`: the items of a stream from `lo` on are in their cells

## Main results

* `window_eq_pieces`: a window is a piece before the physical end and one from the start
* `copyOut_eq`: a read copies the first `k` cells of the window, and faults exactly when the
  destination is too short
* `window_advance`: moving the read cursor drops the cells read
* `copyIn_window`: a write behind the window appends to it
* `load_carried`, `store_carried`: a stream read and written item by item
-/

namespace Ring

open Region

variable {α : Type*}

/-- The `n` cells from the cursor `out` on. -/
def window (buf : List α) (out n : ℕ) : List α := (buf.rotate out).take n

theorem length_window {buf : List α} {out n : ℕ} (h : n ≤ buf.length) :
    (window buf out n).length = n := by
  rw [window, List.length_take, List.length_rotate, min_eq_left h]

@[simp] theorem window_zero (buf : List α) (out : ℕ) : window buf out 0 = [] := List.take_zero

/-- Only the cursor modulo the length matters. -/
theorem window_congr {buf : List α} {out out' : ℕ} (n : ℕ)
    (h : out % buf.length = out' % buf.length) : window buf out n = window buf out' n := by
  rw [window, window, ← List.rotate_mod buf out, h, List.rotate_mod]

/-- The size of the piece before the physical end. -/
abbrev firstPiece (buf : List α) (i k : ℕ) : ℕ := min k (buf.length - i)

/-- Copy `k` cells at the physical index `i` to the start of `dst`. -/
def copyOut (dst buf : List α) (i k : ℕ) : Option (List α) :=
  (memcpy dst 0 buf i (firstPiece buf i k)).bind fun dst =>
    memcpy dst (firstPiece buf i k) buf 0 (k - firstPiece buf i k)

/-- Copy the first `k` cells of `src` to the physical index `i`. -/
def copyIn (buf : List α) (i : ℕ) (src : List α) (k : ℕ) : Option (List α) :=
  (memcpy buf i src 0 (firstPiece buf i k)).bind fun buf' =>
    memcpy buf' 0 src (firstPiece buf i k) (k - firstPiece buf i k)

theorem rotate_eq {buf : List α} {c : ℕ} (h : c ≤ buf.length) :
    buf.rotate c = buf.drop c ++ buf.take c :=
  List.rotate_eq_drop_append_take h

/-- The first `k` cells from the cursor are the two pieces. -/
theorem take_rotate {buf : List α} {out k : ℕ} (hpos : 0 < buf.length) :
    (buf.rotate out).take k =
      (buf.drop (out % buf.length)).take (firstPiece buf (out % buf.length) k) ++
        buf.take (min (k - firstPiece buf (out % buf.length) k) (out % buf.length)) := by
  have hlt := Nat.mod_lt out hpos
  rw [← List.rotate_mod, rotate_eq hlt.le, List.take_append, List.take_take, List.length_drop]
  congr 1
  · rw [firstPiece, ← List.length_drop, ← List.take_take, List.take_length]
  · congr 1
    simp only [firstPiece]
    omega

/-- A window is the two pieces. -/
theorem window_eq_pieces {buf : List α} {k : ℕ} (out : ℕ) (hpos : 0 < buf.length)
    (hk : k ≤ buf.length) :
    window buf out k =
      (buf.drop (out % buf.length)).take (firstPiece buf (out % buf.length) k) ++
        buf.take (k - firstPiece buf (out % buf.length) k) := by
  have hlt := Nat.mod_lt out hpos
  have hrest : min (k - firstPiece buf (out % buf.length) k) (out % buf.length) =
      k - firstPiece buf (out % buf.length) k := by
    simp only [firstPiece]
    omega
  rw [window, take_rotate hpos, hrest]

/-- **A two-piece read** copies the first `k` cells of the window, and faults exactly when the
destination is shorter. -/
theorem copyOut_eq {buf : List α} {k : ℕ} (dst : List α) (out : ℕ) (hpos : 0 < buf.length)
    (hk : k ≤ buf.length) :
    copyOut dst buf (out % buf.length) k =
      if k ≤ dst.length then some (window buf out k ++ dst.drop k) else none := by
  have hlt := Nat.mod_lt out hpos
  set i := out % buf.length with hi
  have hk₁ : firstPiece buf i k ≤ k := min_le_left _ _
  have hk₂ : firstPiece buf i k ≤ buf.length - i := min_le_right _ _
  have hlen : ((buf.drop i).take (firstPiece buf i k)).length = firstPiece buf i k := by
    rw [List.length_take, List.length_drop]; omega
  have hlen' : (buf.take (k - firstPiece buf i k)).length = k - firstPiece buf i k := by
    rw [List.length_take]; omega
  have hw := window_eq_pieces out hpos hk
  rw [← hi] at hw
  rw [copyOut, memcpy_eq_store (by omega)]
  by_cases hd : firstPiece buf i k ≤ dst.length
  · rw [store_eq_some (by omega), Option.bind_some, memcpy_eq_store (by omega), List.drop_zero]
    by_cases hd' : k ≤ dst.length
    · -- both pieces fit
      rw [store_eq_some, if_pos hd', hw, hlen, hlen']
      · simp [List.drop_append, hlen, hk₁]
      · simp only [List.take_zero, List.nil_append, List.length_append, hlen, List.length_drop,
          hlen']
        omega
    · -- the first piece fits, the second does not
      rw [if_neg hd', store_eq_none]
      simp only [List.take_zero, List.nil_append, List.length_append, hlen, List.length_drop,
        hlen']
      omega
  · -- the first piece does not fit
    rw [store_eq_none (by omega), if_neg (by omega), Option.bind_none]

/-- Moving the read cursor over `k` unread cells drops them from the window. -/
theorem window_advance {buf : List α} {out n k : ℕ} (hn : n ≤ buf.length) (hk : k ≤ n) :
    window buf (out + k) (n - k) = (window buf out n).drop k := by
  have hl : (buf.rotate out).length = buf.length := List.length_rotate ..
  rw [window, ← List.rotate_rotate, rotate_eq (by omega), List.take_append_of_le_length
    (by rw [List.length_drop]; omega), window, List.drop_take]

theorem take_window {buf : List α} {out n k : ℕ} (hk : k ≤ n) :
    (window buf out n).take k = window buf out k := by
  rw [window, window, List.take_take, min_eq_left hk]

/-- **A two-piece write** from the cursor `c` overwrites the first cells seen from it. -/
theorem copyIn_rotate {buf src : List α} {c k : ℕ} (hpos : 0 < buf.length) (hk : k ≤ buf.length)
    (hs : k ≤ src.length) :
    ∃ buf', copyIn buf (c % buf.length) src k = some buf' ∧ buf'.length = buf.length ∧
      buf'.rotate c = src.take k ++ (buf.rotate c).drop k := by
  have hlt := Nat.mod_lt c hpos
  set i := c % buf.length with hi
  have hk₁ : firstPiece buf i k ≤ k := min_le_left _ _
  have hk₂ : firstPiece buf i k ≤ buf.length - i := min_le_right _ _
  have hlen : (src.take (firstPiece buf i k)).length = firstPiece buf i k := by
    rw [List.length_take]; omega
  have hlen' : ((src.drop (firstPiece buf i k)).take (k - firstPiece buf i k)).length =
      k - firstPiece buf i k := by
    rw [List.length_take, List.length_drop]; omega
  -- Both regions are turned at the same physical index.
  have hrot : ∀ b : List α, b.length = buf.length → b.rotate c = b.drop i ++ b.take i := by
    intro b hb
    rw [← List.rotate_mod, hb, ← hi, rotate_eq (by omega)]
  -- The two pieces are the cells written.
  have hsrc : src.take (firstPiece buf i k) ++
      (src.drop (firstPiece buf i k)).take (k - firstPiece buf i k) = src.take k := by
    rw [← List.take_add, Nat.add_sub_cancel' hk₁]
  rw [copyIn, memcpy_eq_store (by omega), List.drop_zero, store_eq_some (by omega),
    Option.bind_some, memcpy_eq_store (by omega), hlen]
  set mid := buf.take i ++ src.take (firstPiece buf i k) ++ buf.drop (i + firstPiece buf i k)
    with hmid
  have hmlen : mid.length = buf.length := by
    simp only [hmid, List.length_append, List.length_take, List.length_drop]; omega
  rw [store_eq_some (by omega), List.take_zero, List.nil_append, hlen', Nat.zero_add]
  refine ⟨_, rfl, ?_, ?_⟩
  · rw [List.length_append, hlen', List.length_drop, hmlen]; omega
  rw [hrot _ (by rw [List.length_append, hlen', List.length_drop, hmlen]; omega), hrot buf rfl]
  by_cases hfit : k ≤ buf.length - i
  · -- one piece: the second copy is empty
    have h₁ : firstPiece buf i k = k := min_eq_left hfit
    have hil : (buf.take i).length = i := by rw [List.length_take]; omega
    simp only [hmid, h₁, Nat.sub_self, List.take_zero, List.nil_append, List.drop_zero,
      List.append_assoc]
    rw [List.drop_left' hil, List.take_left' hil, List.drop_append_of_le_length
      (by rw [List.length_drop]; omega), List.drop_drop]
    simp
  · -- two pieces: the first reaches the physical end, the second starts the region again
    have h₁ : firstPiece buf i k = buf.length - i := min_eq_right (by omega)
    have hil : (buf.take i).length = i := by rw [List.length_take]; omega
    have hend : buf.drop (i + firstPiece buf i k) = [] :=
      List.drop_eq_nil_of_le (by omega)
    have hdrop : mid.drop (k - firstPiece buf i k) =
        (buf.take i).drop (k - firstPiece buf i k) ++ src.take (firstPiece buf i k) := by
      rw [hmid, hend, List.append_nil, List.drop_append_of_le_length (by omega)]
    have hpre : ((src.drop (firstPiece buf i k)).take (k - firstPiece buf i k) ++
        (buf.take i).drop (k - firstPiece buf i k)).length = i := by
      rw [List.length_append, hlen', List.length_drop, hil]; omega
    have hold : (buf.drop i ++ buf.take i).drop k = (buf.take i).drop (k - firstPiece buf i k) := by
      have hl : (buf.drop i).length = buf.length - i := List.length_drop
      rw [List.drop_append, List.drop_eq_nil_of_le (by omega), List.nil_append, hl, h₁]
    rw [hdrop, ← List.append_assoc, List.drop_left' hpre, List.take_left' hpre, ← List.append_assoc,
      hsrc, hold]

/-- **A write behind the window** appends what was written to it. -/
theorem copyIn_window {buf src : List α} {out n k : ℕ} (hpos : 0 < buf.length)
    (hn : n + k ≤ buf.length) (hs : k ≤ src.length) :
    ∃ buf', copyIn buf ((out + n) % buf.length) src k = some buf' ∧
      buf'.length = buf.length ∧ window buf' out (n + k) = window buf out n ++ src.take k := by
  obtain ⟨buf', hc, hlen, hrot⟩ :
      ∃ buf', copyIn buf ((out + n) % buf.length) src k = some buf' ∧ buf'.length = buf.length ∧
        buf'.rotate (out + n) = src.take k ++ (buf.rotate (out + n)).drop k :=
    copyIn_rotate hpos (by omega) hs
  refine ⟨buf', hc, hlen, ?_⟩
  have hl : (buf.rotate out).length = buf.length := List.length_rotate ..
  have hl' : (buf'.rotate out).length = buf.length := (List.length_rotate ..).trans hlen
  have hr : (buf.rotate out).rotate n = (buf.rotate out).drop n ++ (buf.rotate out).take n :=
    rotate_eq (by omega)
  have hr' : (buf'.rotate out).rotate n = (buf'.rotate out).drop n ++ (buf'.rotate out).take n :=
    rotate_eq (by omega)
  rw [← List.rotate_rotate, ← List.rotate_rotate, hr, hr',
    List.drop_append_of_le_length (by rw [List.length_drop]; omega), ← List.append_assoc] at hrot
  -- both sides split at the old write cursor
  obtain ⟨htail, hhead⟩ := List.append_inj hrot (by
    simp only [List.length_append, List.length_drop, List.length_take, hl, hl']; omega)
  rw [window, List.take_add, hhead, htail, List.take_left' (by rw [List.length_take]; omega),
    window]

/-! ## Streams -/

/-- From `lo` on, the items of the stream `s` are in the cells at their index modulo the length. -/
def Carries (buf s : List α) (lo : ℕ) : Prop :=
  ∀ i, lo ≤ i → i < s.length → buf[i % buf.length]? = s[i]?

theorem Carries.mono {buf s : List α} {lo lo' : ℕ} (h : Carries buf s lo) (hlo : lo ≤ lo') :
    Carries buf s lo' := fun i hi => h i (hlo.trans hi)

/-- An item is read from its cell. -/
theorem load_carried {buf s : List α} {lo i : ℕ} (h : Carries buf s lo) (hlo : lo ≤ i)
    (hi : i < s.length) : load buf (i % buf.length) 1 = some [s[i]] := by
  have hcell : buf[i % buf.length]? = some s[i] := (h i hlo hi).trans (List.getElem?_eq_getElem hi)
  obtain ⟨hlt, hget⟩ := List.getElem?_eq_some_iff.mp hcell
  rw [load_one hlt, hget]

/-- **The next item**: its cell carries nothing while the stream is shorter than the buffer. -/
theorem store_carried {buf s : List α} {lo : ℕ} (h : Carries buf s lo)
    (hfree : s.length < lo + buf.length) (hpos : 0 < buf.length) (x : α) :
    ∃ buf', store buf (s.length % buf.length) [x] = some buf' ∧ buf'.length = buf.length ∧
      Carries buf' (s ++ [x]) lo := by
  have hlt := Nat.mod_lt s.length hpos
  refine ⟨_, store_one hlt x, List.length_set, fun i hlo hi => ?_⟩
  rw [List.length_append, List.length_singleton] at hi
  rw [List.length_set]
  rcases Nat.lt_succ_iff_lt_or_eq.mp hi with hi | rfl
  · -- an older item is in another cell
    have hne : s.length % buf.length ≠ i % buf.length := fun heq => by
      have hzero := Nat.sub_mod_eq_zero_of_mod_eq heq
      rw [Nat.mod_eq_of_lt (by omega)] at hzero
      omega
    rw [List.getElem?_set_ne hne, List.getElem?_append_left hi]
    exact h i hlo hi
  · rw [List.getElem?_set_self hlt, List.getElem?_concat_length]

end Ring
