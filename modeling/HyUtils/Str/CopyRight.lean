import HyUtils.Foundation.Region
import Mathlib.Algebra.Order.Ring.Nat
import Mathlib.Data.List.DropRight

/-!
# Copying the end of a string

`src/src/hy_string.c`: `HyStrCopyRight` copies what follows the last separator of a string, found by
a scan from its end. The scan looks at a byte before it looks at its count, so it looks at the byte
before the string when the separator does not occur. `HyStrCopyRight2` is the same function for two
separators.

## Main definitions

* `strlen`, `strncmpEq`: the library functions, over regions
* `scanRight`: the scan from the end of the string
* `hyStrCopyRight`: the function, undefined when it leaves a region
* `hyStrCopyRight2`: the function for two separators
* `lastPart`, `copied`: what follows the last separator, and what a copy of it leaves

## Main results

* `hyStrCopyRight_eq_some`: the function returns when the byte before the string can be read and the
  destination has room
* `hyStrCopyRight2_spec`: the destination holds as much of what follows the last separator as fits
* `copyRight_iff`: when the two functions do so, and that they agree
* `strncmpEq_isSome`, `strncmpEq_prefix`: a comparison that stays within its regions returns, and
  as long as a string it asks for a prefix
-/

namespace HyUtils.Str

open Region

/-- `strlen` of the string at `off`. -/
def strlen (r : List UInt8) (off : ℕ) : Option ℕ := (r.drop off).findIdx? (· = 0)

/-- `strncmp(..) == 0` of the strings at the start of two regions. -/
def strncmpEq : List UInt8 → List UInt8 → ℕ → Option Bool
  | _, _, 0 => some true
  | x :: xs, y :: ys, n + 1 =>
    if x ≠ y then some false else if x = 0 then some true else strncmpEq xs ys n
  | _, _, _ + 1 => none

/-- The scan of `HyStrCopyRight`, with `k` bytes of the string at `off` left to look at: how many
are left when it stops. -/
def scanRight (src : List UInt8) (off : ℕ) (ch : UInt8) : ℕ → Option ℕ
  | 0 => do
    -- the count ends the loop, but only after the byte before the string is read
    guard (off ≠ 0)
    let _ ← src[off - 1]?
    return 0
  | k + 1 => do
    let c ← src[off + k]?
    if c = 0 ∨ c = ch then return k + 1 else scanRight src off ch k

/-- `HyStrCopyRight` from the string at `soff` of `src` to the `len` bytes at `doff` of `dst`. -/
def hyStrCopyRight (src : List UInt8) (soff : ℕ) (dst : List UInt8) (doff : ℕ) (len : UInt64)
    (ch : UInt8) : Option (List UInt8) := do
  let dst ← memset dst doff 0 len.toNat
  let srcLen ← strlen src soff
  let left ← scanRight src soff ch srcLen
  let cnt := srcLen - left
  let cnt := if len.toNat ≤ cnt then (len - 1).toNat else cnt
  memcpy dst doff src (soff + left) cnt

/-- The length of a string is where its terminator is. -/
theorem strlen_of_append {pre s post : List UInt8} (hs : (0 : UInt8) ∉ s) :
    strlen (pre ++ (s ++ 0 :: post)) pre.length = some s.length := by
  rw [strlen, List.drop_left, List.findIdx?_append]
  have hnone : s.findIdx? (· = 0) = none := by
    rw [List.findIdx?_eq_none_iff]
    intro x hx
    simpa using fun h0 : x = 0 => hs (h0 ▸ hx)
  rw [hnone]
  simp [List.findIdx?_cons]

theorem scanRight_eq_some {src : List UInt8} {off : ℕ} {ch : UInt8} (hoff : 0 < off) :
    ∀ {k : ℕ}, off + k ≤ src.length → ∃ left ≤ k, scanRight src off ch k = some left := by
  intro k
  induction k with
  | zero =>
    intro hk
    have hget : src[off - 1]? = some src[off - 1] := List.getElem?_eq_getElem (by omega)
    refine ⟨0, le_rfl, ?_⟩
    rw [scanRight, hget, guard, if_pos hoff.ne']
    rfl
  | succ k ih =>
    intro hk
    obtain ⟨left, hle, hscan⟩ := ih (by omega)
    have hget : src[off + k]? = some src[off + k] := List.getElem?_eq_getElem (by omega)
    rw [scanRight, hget, Option.bind_eq_bind, Option.bind_some]
    split_ifs
    · exact ⟨k + 1, le_rfl, rfl⟩
    · exact ⟨left, by omega, hscan⟩

/-- **The copy stays in bounds**, and keeps the size of the destination, when the byte before the
string can be read. -/
theorem hyStrCopyRight_eq_some {pre s post dst : List UInt8} {doff : ℕ} {len : UInt64} {ch : UInt8}
    (hs : (0 : UInt8) ∉ s) (hpre : pre ≠ []) (hlen : 0 < len.toNat)
    (hdst : doff + len.toNat ≤ dst.length) :
    ∃ dst', hyStrCopyRight (pre ++ (s ++ 0 :: post)) pre.length dst doff len ch = some dst' ∧
      dst'.length = dst.length := by
  have hbound : pre.length + s.length ≤ (pre ++ (s ++ 0 :: post)).length := by simp
  obtain ⟨left, hleft, hscan⟩ :=
    @scanRight_eq_some _ _ ch (List.length_pos_iff.mpr hpre) _ hbound
  have hsub : (len - 1).toNat = len.toNat - 1 := by
    have h1 : (1 : UInt64) ≤ len := UInt64.le_iff_toNat_le.mpr hlen
    rw [UInt64.toNat_sub_of_le _ _ h1]
    rfl
  obtain ⟨cleared, hclear, hcleared⟩ := memset_eq_some (x := (0 : UInt8)) hdst
  -- the count is cut to leave a terminator
  obtain ⟨cnt, hcnt, hcntlen, hcnts⟩ : ∃ cnt,
      (if len.toNat ≤ s.length - left then (len - 1).toNat else s.length - left) = cnt ∧
        cnt < len.toNat ∧ cnt ≤ s.length - left := by
    refine ⟨_, rfl, ?_, ?_⟩
    · split_ifs <;> omega
    · split_ifs <;> omega
  obtain ⟨dst', hcopy, hdst'⟩ : ∃ dst',
      memcpy cleared doff (pre ++ (s ++ 0 :: post)) (pre.length + left) cnt = some dst' ∧
        dst'.length = cleared.length := memcpy_eq_some (by omega) (by omega)
  refine ⟨dst', ?_, hdst'.trans hcleared⟩
  rw [hyStrCopyRight, hclear, strlen_of_append hs]
  dsimp only [Option.bind_eq_bind, Option.bind_some]
  rw [hscan, Option.bind_some, hcnt, hcopy]

/-! ## Two separators -/

/-- The scan of `HyStrCopyRight2`. -/
def scanRight2 (src : List UInt8) (off : ℕ) (ch ch2 : UInt8) : ℕ → Option ℕ
  | 0 => do
    guard (off ≠ 0)
    let _ ← src[off - 1]?
    return 0
  | k + 1 => do
    let c ← src[off + k]?
    if c = 0 ∨ c = ch ∨ c = ch2 then return k + 1 else scanRight2 src off ch ch2 k

/-- `HyStrCopyRight2` from the string at `soff` of `src` to the `len` bytes at `doff` of `dst`. -/
def hyStrCopyRight2 (src : List UInt8) (soff : ℕ) (dst : List UInt8) (doff : ℕ) (len : UInt64)
    (ch ch2 : UInt8) : Option (List UInt8) := do
  let dst ← memset dst doff 0 len.toNat
  let srcLen ← strlen src soff
  let left ← scanRight2 src soff ch ch2 srcLen
  let cnt := srcLen - left
  let cnt := if len.toNat ≤ cnt then (len - 1).toNat else cnt
  memcpy dst doff src (soff + left) cnt

/-- What follows the last separator of a string. -/
def lastPart (ch ch2 : UInt8) (s : List UInt8) : List UInt8 :=
  s.rtakeWhile fun c => c ≠ ch ∧ c ≠ ch2

theorem lastPart_suffix (ch ch2 : UInt8) (s : List UInt8) : lastPart ch ch2 s <:+ s :=
  List.rtakeWhile_suffix _ s

theorem lastPart_of_notMem {ch ch2 : UInt8} {s : List UInt8} (h : ch ∉ s) (h2 : ch2 ∉ s) :
    lastPart ch ch2 s = s := by
  rw [lastPart, List.rtakeWhile_eq_self_iff]
  intro c hc
  rw [decide_eq_true_iff]
  constructor
  · rintro rfl
    exact h hc
  · rintro rfl
    exact h2 hc

/-- The scan finds the last separator; without one it goes on to the byte before the string. -/
theorem scanRight2_eq {pre s rest : List UInt8} {ch ch2 : UInt8} (hs : (0 : UInt8) ∉ s) :
    scanRight2 (pre ++ (s ++ rest)) pre.length ch ch2 s.length =
      if pre ≠ [] ∨ ch ∈ s ∨ ch2 ∈ s then some (s.length - (lastPart ch ch2 s).length)
      else none := by
  -- the scan takes the string from its end
  induction s using List.reverseRecOn generalizing rest with
  | nil =>
    -- at the start of the string the byte before it is read, and then the count ends the scan
    rw [List.length_nil, scanRight2, guard]
    cases pre with
    | nil => rfl
    | cons c pre =>
      have hget : (c :: pre ++ ([] ++ rest))[(c :: pre).length - 1]? =
          some ((c :: pre)[(c :: pre).length - 1]) := by
        rw [List.getElem?_append_left (Nat.lt_succ_self pre.length), List.getElem?_eq_getElem]
      have hpos : (c :: pre).length ≠ 0 := Nat.succ_ne_zero pre.length
      rw [hget, if_pos hpos, if_pos (.inl (List.cons_ne_nil c pre))]
      rfl
  | append_singleton s c ih =>
    have hget : (pre ++ (s ++ [c] ++ rest))[pre.length + s.length]? = some c := by
      rw [List.getElem?_append_right (by omega)]
      simp
    have hc : c ≠ 0 := by
      rintro rfl
      simp at hs
    rw [List.length_append, List.length_singleton, scanRight2, hget, Option.bind_eq_bind,
      Option.bind_some, lastPart]
    by_cases hsep : c = ch ∨ c = ch2
    · have hmem : ch ∈ s ++ [c] ∨ ch2 ∈ s ++ [c] := by
        rcases hsep with rfl | rfl
        · exact .inl (List.mem_append_right s List.mem_cons_self)
        · exact .inr (List.mem_append_right s List.mem_cons_self)
      rw [if_pos (.inr hsep), if_pos (.inr hmem),
        List.rtakeWhile_concat_neg _ _ _ (by simpa [or_iff_not_imp_left] using hsep)]
      rfl
    · have hmem : ch ∈ s ++ [c] ∨ ch2 ∈ s ++ [c] ↔ ch ∈ s ∨ ch2 ∈ s := by
        obtain ⟨hne, hne2⟩ := not_or.mp hsep
        simp [Ne.symm hne, Ne.symm hne2]
      rw [if_neg (by simp [hc, hsep]), List.rtakeWhile_concat_pos _ _ _ (by simpa using hsep),
        List.append_assoc, ih fun h0 => hs (List.mem_append_left _ h0)]
      simp only [hmem]
      rw [lastPart, List.length_append, List.length_singleton, Nat.add_sub_add_right]

/-- The count is cut to leave a terminator. -/
theorem cut_count {len : UInt64} (hlen : 0 < len.toNat) (s : List UInt8) :
    (if len.toNat ≤ s.length then (len - 1).toNat else s.length) =
      (s.take (len.toNat - 1)).length := by
  have h1 : (1 : UInt64) ≤ len := UInt64.le_iff_toNat_le.mpr hlen
  have hsub : (len - 1).toNat = len.toNat - 1 := UInt64.toNat_sub_of_le _ _ h1
  rw [List.length_take, hsub]
  split_ifs <;> omega

/-- What a copy leaves in a destination of `n` bytes: as much of the last part as fits before a
terminator, then zeros. -/
def copied (ch ch2 : UInt8) (s : List UInt8) (n : ℕ) : List UInt8 :=
  (lastPart ch ch2 s).take (n - 1) ++
    List.replicate (n - ((lastPart ch ch2 s).take (n - 1)).length) 0

/-- **The destination holds what follows the last separator**, as much of it as fits before a
terminator, unless the byte before the string is needed and cannot be read. -/
theorem hyStrCopyRight2_spec {s dst : List UInt8} {len : UInt64} (ch ch2 : UInt8)
    (pre post : List UInt8) (hs : (0 : UInt8) ∉ s) (hlen : 0 < len.toNat)
    (hdst : len.toNat ≤ dst.length) :
    hyStrCopyRight2 (pre ++ (s ++ 0 :: post)) pre.length dst 0 len ch ch2 =
      if pre ≠ [] ∨ ch ∈ s ∨ ch2 ∈ s then
        some (copied ch ch2 s len.toNat ++ dst.drop len.toNat)
      else none := by
  have hclear : memset dst 0 0 len.toNat =
      some (List.replicate len.toNat 0 ++ dst.drop len.toNat) := by
    rw [memset, store_start (by rwa [List.length_replicate]), List.length_replicate]
  rw [hyStrCopyRight2, hclear, strlen_of_append hs]
  dsimp only [Option.bind_eq_bind, Option.bind_some]
  rw [scanRight2_eq hs]
  by_cases hstop : pre ≠ [] ∨ ch ∈ s ∨ ch2 ∈ s
  · obtain ⟨init, hinit⟩ := lastPart_suffix ch ch2 s
    have hleft : s.length - (lastPart ch ch2 s).length = init.length := by
      rw [← congrArg List.length hinit, List.length_append, Nat.add_sub_cancel]
    -- what is read, from the last separator on
    have hread : load (pre ++ (s ++ 0 :: post)) (pre.length + init.length)
        ((lastPart ch ch2 s).take (len.toNat - 1)).length =
          some ((lastPart ch ch2 s).take (len.toNat - 1)) := by
      have hsplit : pre ++ (s ++ 0 :: post) = (pre ++ init) ++
          (lastPart ch ch2 s).take (len.toNat - 1) ++
            ((lastPart ch ch2 s).drop (len.toNat - 1) ++ 0 :: post) := by
        conv_lhs => rw [← hinit, ← List.take_append_drop (len.toNat - 1) (lastPart ch ch2 s)]
        simp only [List.append_assoc]
      rw [hsplit]
      exact load_middle List.length_append.symm rfl
    have hfit : ((lastPart ch ch2 s).take (len.toNat - 1)).length ≤ len.toNat := by
      rw [List.length_take]
      omega
    rw [if_pos hstop, if_pos hstop, Option.bind_some,
      Nat.sub_sub_self (lastPart_suffix _ _ _).length_le, cut_count hlen, hleft, memcpy, hread,
      Option.bind_some, store_start (by simpa using hfit.trans (Nat.le_add_right _ _)),
      List.drop_append_of_le_length (by rwa [List.length_replicate]), List.drop_replicate, copied,
      List.append_assoc]
  · rw [if_neg hstop, if_neg hstop, Option.bind_none]

/-- The whole destination, when the byte before the string can be read. -/
theorem hyStrCopyRight2_eq {s dst : List UInt8} {len : UInt64} (ch ch2 : UInt8)
    (pre post : List UInt8) (hs : (0 : UInt8) ∉ s) (hpre : pre ≠ []) (hlen : 0 < len.toNat)
    (hdst : dst.length = len.toNat) :
    ∃ zeros, hyStrCopyRight2 (pre ++ (s ++ 0 :: post)) pre.length dst 0 len ch ch2 =
      some ((lastPart ch ch2 s).take (len.toNat - 1) ++ 0 :: zeros) := by
  refine ⟨List.replicate (len.toNat - 1 - ((lastPart ch ch2 s).take (len.toNat - 1)).length) 0, ?_⟩
  have hfit : ((lastPart ch ch2 s).take (len.toNat - 1)).length ≤ len.toNat - 1 :=
    List.length_take_le _ _
  rw [hyStrCopyRight2_spec ch ch2 pre post hs hlen hdst.ge, if_pos (.inl hpre), ← hdst,
    List.drop_length, List.append_nil, hdst, copied, ← List.replicate_succ]
  congr 3
  omega

/-! ## The two functions -/

theorem scanRight_eq_scanRight2 (src : List UInt8) (off : ℕ) (ch : UInt8) (k : ℕ) :
    scanRight src off ch k = scanRight2 src off ch ch k := by
  induction k with
  | zero => rfl
  | succ k ih => simp only [scanRight, scanRight2, or_self, ih]

/-- With one separator twice, the second function is the first. -/
theorem hyStrCopyRight_eq_copyRight2 (src : List UInt8) (soff : ℕ) (dst : List UInt8) (doff : ℕ)
    (len : UInt64) (ch : UInt8) :
    hyStrCopyRight src soff dst doff len ch = hyStrCopyRight2 src soff dst doff len ch ch := by
  simp only [hyStrCopyRight, hyStrCopyRight2, scanRight_eq_scanRight2]

/-- **The copies of the last part**: each function leaves it in the destination exactly when the
byte before the string can be read or a separator occurs in the string, and the two functions
agree. -/
theorem copyRight_iff {pre s post dst : List UInt8} {len : UInt64} (ch ch2 : UInt8)
    (hs : (0 : UInt8) ∉ s) (hlen : 0 < len.toNat) (hdst : len.toNat ≤ dst.length) :
    (hyStrCopyRight (pre ++ (s ++ 0 :: post)) pre.length dst 0 len ch =
        some (copied ch ch s len.toNat ++ dst.drop len.toNat) ↔ pre ≠ [] ∨ ch ∈ s) ∧
      (hyStrCopyRight2 (pre ++ (s ++ 0 :: post)) pre.length dst 0 len ch ch2 =
        some (copied ch ch2 s len.toNat ++ dst.drop len.toNat) ↔
          pre ≠ [] ∨ ch ∈ s ∨ ch2 ∈ s) ∧
      hyStrCopyRight2 (pre ++ (s ++ 0 :: post)) pre.length dst 0 len ch ch =
        hyStrCopyRight (pre ++ (s ++ 0 :: post)) pre.length dst 0 len ch := by
  refine ⟨?_, ?_, (hyStrCopyRight_eq_copyRight2 ..).symm⟩
  · rw [hyStrCopyRight_eq_copyRight2, hyStrCopyRight2_spec ch ch pre post hs hlen hdst,
      Option.ite_none_right_eq_some, and_iff_left rfl, or_self]
  · rw [hyStrCopyRight2_spec ch ch2 pre post hs hlen hdst, Option.ite_none_right_eq_some,
      and_iff_left rfl]

/-- A string at the start of its region and without the separator: the byte before it is read. -/
theorem copyRight_reads_before :
    hyStrCopyRight [97, 98, 0] 0 [1, 1, 1, 1] 0 4 47 = none ∧
      hyStrCopyRight2 [97, 98, 0] 0 [1, 1, 1, 1] 0 4 47 92 = none := by decide

/-- The name of a file in a directory, cut to two characters. -/
theorem copyRight_iff_path :
    (hyStrCopyRight [47, 97, 47, 98, 99, 100, 0] 0 [1, 1, 1] 0 3 47 =
        some (copied 47 47 [47, 97, 47, 98, 99, 100] 3 ++ []) ↔
          [] ≠ ([] : List UInt8) ∨ (47 : UInt8) ∈ [47, 97, 47, 98, 99, 100]) ∧
      (hyStrCopyRight2 [47, 97, 47, 98, 99, 100, 0] 0 [1, 1, 1] 0 3 47 92 =
        some (copied 47 92 [47, 97, 47, 98, 99, 100] 3 ++ []) ↔
          [] ≠ ([] : List UInt8) ∨ (47 : UInt8) ∈ [47, 97, 47, 98, 99, 100] ∨
            (92 : UInt8) ∈ [47, 97, 47, 98, 99, 100]) ∧
      hyStrCopyRight2 [47, 97, 47, 98, 99, 100, 0] 0 [1, 1, 1] 0 3 47 47 =
        hyStrCopyRight [47, 97, 47, 98, 99, 100, 0] 0 [1, 1, 1] 0 3 47 :=
  @copyRight_iff [] [47, 97, 47, 98, 99, 100] [] [1, 1, 1] 3 47 92 (by decide) (by decide)
    (by decide)

/-! ## Comparing -/

/-- A comparison of no more bytes than both regions have returns. -/
theorem strncmpEq_isSome {xs ys : List UInt8} {n : ℕ} (hx : n ≤ xs.length) (hy : n ≤ ys.length) :
    ∃ b, strncmpEq xs ys n = some b := by
  induction xs generalizing ys n with
  | nil =>
    obtain rfl : n = 0 := by simpa using hx
    exact ⟨true, rfl⟩
  | cons x xs ih =>
    cases n with
    | zero => exact ⟨true, rfl⟩
    | succ n =>
      cases ys with
      | nil => simp at hy
      | cons y ys =>
        rw [strncmpEq]
        split_ifs
        · exact ⟨false, rfl⟩
        · exact ⟨true, rfl⟩
        · exact ih (by simpa using hx) (by simpa using hy)

/-- **A comparison as long as a string** asks whether the other one begins with it. -/
theorem strncmpEq_prefix {xs f : List UInt8} (rest : List UInt8) (hf : (0 : UInt8) ∉ f)
    (h : f.length ≤ xs.length) :
    strncmpEq xs (f ++ rest) f.length = some (decide (f <+: xs)) := by
  induction f generalizing xs with
  | nil => simp [strncmpEq]
  | cons y f ih =>
    rw [List.mem_cons, not_or] at hf
    cases xs with
    | nil => simp at h
    | cons x xs =>
      rw [List.cons_append, List.length_cons, strncmpEq]
      by_cases hxy : x = y
      · subst hxy
        rw [if_neg (not_not.mpr rfl), if_neg (Ne.symm hf.1), ih hf.2 (by simpa using h)]
        simp [List.cons_prefix_cons]
      · rw [if_pos hxy]
        simp [List.cons_prefix_cons, Ne.symm hxy]

end HyUtils.Str
