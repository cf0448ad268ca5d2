import HyUtils.Str.CopyRight

/-!
# What the copies of the end of a string touch

`src/src/hy_string.c`: the two functions on a source that ends with its terminator and a destination
of just the bytes that are passed. A run that looks at a byte before the string, or writes one after
the destination, has no result there.

## Main results

* `hyStrCopyRight2_of_len_zero`: without room in the destination the count wraps around
* `copyRight_inBounds_iff`: each function stays in bounds when there is room and a separator occurs
-/

namespace HyUtils.Str

open Region

/-- **The count wraps around** when there is no room: the copy takes the whole address space. -/
theorem hyStrCopyRight2_of_len_zero (src : List UInt8) (soff : ℕ) (ch ch2 : UInt8) :
    hyStrCopyRight2 src soff [] 0 0 ch ch2 = none := by
  apply Option.eq_none_iff_forall_ne_some.mpr
  intro dst' hcopy
  unfold hyStrCopyRight2 at hcopy
  obtain ⟨dst, hclear, hcopy⟩ := Option.bind_eq_some_iff.mp hcopy
  obtain ⟨srcLen, -, hcopy⟩ := Option.bind_eq_some_iff.mp hcopy
  obtain ⟨left, -, hcopy⟩ := Option.bind_eq_some_iff.mp hcopy
  cases (show some [] = some dst from hclear)
  have hcut : (0 : UInt64).toNat ≤ srcLen - left := Nat.zero_le _
  dsimp only at hcopy
  rw [if_pos hcut] at hcopy
  -- `len - 1` bytes cannot be written to a destination of none
  obtain ⟨-, hroom⟩ := memcpy_bounds hcopy
  exact absurd hroom (by decide)

/-- The second function stays in bounds when there is room and one of its separators occurs. -/
theorem hyStrCopyRight2_isSome_iff {s dst : List UInt8} {len : UInt64} (ch ch2 : UInt8)
    (hs : (0 : UInt8) ∉ s) (hdst : dst.length = len.toNat) :
    (hyStrCopyRight2 (s ++ [0]) 0 dst 0 len ch ch2).isSome ↔ 0 < len ∧ (ch ∈ s ∨ ch2 ∈ s) := by
  by_cases hlen : 0 < len
  · have hspec := hyStrCopyRight2_spec ch ch2 [] [] hs (UInt64.lt_iff_toNat_lt.mp hlen) hdst.ge
    rw [List.nil_append, List.length_nil] at hspec
    rw [hspec, and_iff_right hlen]
    split_ifs with hsep
    · simpa using hsep
    · simpa using hsep
  · obtain rfl : len = 0 := UInt64.le_zero_iff.mp (UInt64.not_lt.mp hlen)
    obtain rfl : dst = [] := List.length_eq_zero_iff.mp hdst
    rw [hyStrCopyRight2_of_len_zero]
    simp

/-- **The bounds of the copies**: on a source that is just the string, and a destination that is
just the bytes passed, each function has a result exactly when there is room for a terminator and a
separator stops the scan inside the string. -/
theorem copyRight_inBounds_iff {s dst : List UInt8} {len : UInt64} (ch ch2 : UInt8)
    (hs : (0 : UInt8) ∉ s) (hdst : dst.length = len.toNat) :
    ((hyStrCopyRight (s ++ [0]) 0 dst 0 len ch).isSome ↔ 0 < len ∧ ch ∈ s) ∧
      ((hyStrCopyRight2 (s ++ [0]) 0 dst 0 len ch ch2).isSome ↔
        0 < len ∧ (ch ∈ s ∨ ch2 ∈ s)) := by
  constructor
  · rw [hyStrCopyRight_eq_copyRight2, hyStrCopyRight2_isSome_iff ch ch hs hdst, or_self]
  · exact hyStrCopyRight2_isSome_iff ch ch2 hs hdst

/-- The empty string, and a destination of no bytes. -/
theorem copyRight_leaves_bounds :
    hyStrCopyRight ([] ++ [0]) 0 [1, 1] 0 2 47 = none ∧
      hyStrCopyRight2 ([] ++ [0]) 0 [1, 1] 0 2 47 92 = none ∧
      hyStrCopyRight ([47, 97] ++ [0]) 0 [] 0 0 47 = none ∧
      hyStrCopyRight2 ([47, 97] ++ [0]) 0 [] 0 0 47 92 = none := by decide

/-- The name of a file in a directory, with room for one character. -/
theorem copyRight_inBounds_iff_path :
    ((hyStrCopyRight ([97, 47, 98, 99] ++ [0]) 0 [1, 1] 0 2 47).isSome ↔
        (0 : UInt64) < 2 ∧ (47 : UInt8) ∈ [97, 47, 98, 99]) ∧
      ((hyStrCopyRight2 ([97, 47, 98, 99] ++ [0]) 0 [1, 1] 0 2 47 92).isSome ↔
        (0 : UInt64) < 2 ∧ ((47 : UInt8) ∈ [97, 47, 98, 99] ∨ (92 : UInt8) ∈ [97, 47, 98, 99])) :=
  @copyRight_inBounds_iff [97, 47, 98, 99] [1, 1] 2 47 92 (by decide) rfl

end HyUtils.Str
