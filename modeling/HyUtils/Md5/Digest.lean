import HyUtils.Md5.Padding
import HyUtils.Md5.Rounds

/-!
# The digest

`HyMd5sum` computes the specified digest of every message whose length in bits fits 64 bits.

## Main results

* `hyMd5sum_eq_md5`: the prepared buffer and the digest
-/

namespace HyUtils.Md5

open LittleEndian Region Words

/-- The loop over the chunks folds the compression over the blocks. -/
theorem chunks_view {message : List UInt8} (regs : Register → UInt32) :
    (List.range ((padded message).length / 64)).foldlM
      (fun h n => chunk (padded message) h (64 * n)) (view 0 regs) =
      some (view 0 ((blocks (padded message)).foldl
        (fun regs block => compress regs (word block)) regs)) := by
  rw [blocks, List.foldl_map, List.range_eq_range']
  refine Runs.foldlM_range' (v := fun _ => view 0) fun regs i _ hi => ?_
  exact chunk_view (by omega) regs

/-- The words of the digest, written one after the other. -/
theorem store_words {digest xs₁ xs₂ xs₃ xs₄ : List UInt8} (h : digest.length = 16)
    (h₁ : xs₁.length = 4) (h₂ : xs₂.length = 4) (h₃ : xs₃.length = 4) (h₄ : xs₄.length = 4) :
    (do
      let digest ← store digest 0 xs₁
      let digest ← store digest 4 xs₂
      let digest ← store digest 8 xs₃
      store digest 12 xs₄) = some (xs₁ ++ xs₂ ++ xs₃ ++ xs₄) := by
  have hs₁ : store digest 0 xs₁ = some (xs₁ ++ digest.drop 4) := by
    rw [store_start (by omega), h₁]
  have hs₂ : store (xs₁ ++ digest.drop 4) 4 xs₂ = some (xs₁ ++ xs₂ ++ digest.drop 8) := by
    rw [store_after h₁.symm (by rw [List.length_drop]; omega), List.drop_drop, h₂]
  have hs₃ : store (xs₁ ++ xs₂ ++ digest.drop 8) 8 xs₃ =
      some (xs₁ ++ xs₂ ++ xs₃ ++ digest.drop 12) := by
    rw [store_after (by rw [List.length_append, h₁, h₂]) (by rw [List.length_drop]; omega),
      List.drop_drop, h₃]
  have hs₄ : store (xs₁ ++ xs₂ ++ xs₃ ++ digest.drop 12) 12 xs₄ =
      some (xs₁ ++ xs₂ ++ xs₃ ++ xs₄) := by
    rw [store_after (by rw [List.length_append, List.length_append, h₁, h₂, h₃])
      (by rw [List.length_drop]; omega), List.drop_drop, h₄, List.drop_eq_nil_of_le h.le,
      List.append_nil]
  simp only [hs₁, hs₂, hs₃, hs₄, Option.bind_eq_bind, Option.bind_some]

/-- **The MD5 digest**: the buffer that `HyMd5sum` prepares is the padded message, and what it
writes is the digest of the message. -/
theorem hyMd5sum_eq_md5 {message digest : List UInt8} (hlen : message.length < 2 ^ 61)
    (hdigest : digest.length = 16) :
    (prepare message (UInt64.ofNat message.length)).map Prod.fst = some (padded message) ∧
      hyMd5sum message (UInt64.ofNat message.length) digest = some (md5 message) := by
  have hprep := prepare_eq_padded hlen
  refine ⟨by rw [hprep, Option.map_some], ?_⟩
  -- The buffer is eight bytes longer than `new_len`, and whole blocks.
  have hz := padZeros_lt message.length
  have hchunks : ((UInt64.ofNat (message.length + 1 + padZeros message.length)).toNat + 63) / 64 =
      (padded message).length / 64 := by
    have hspec := padZeros_spec message.length
    rw [toNat_ofNat_of_lt (by omega), length_padded]
    omega
  -- The variables at the start are the registers at the start.
  have hinit : State.mk 0x67452301 0xefcdab89 0x98badcfe 0x10325476 = view 0 initial := rfl
  rw [hyMd5sum, hprep, Option.bind_eq_bind, Option.bind_some, hinit]
  simp only [hchunks, chunks_view, Option.bind_eq_bind, Option.bind_some]
  rw [md5, toBytes_eq, toBytes_eq, toBytes_eq, toBytes_eq]
  exact store_words hdigest (length_leBytes _ _) (length_leBytes _ _) (length_leBytes _ _)
    (length_leBytes _ _)

/-- The digest of a short message. -/
theorem hyMd5sum_eq_md5_three :
    (prepare [0x61, 0x62, 0x63] (UInt64.ofNat 3)).map Prod.fst = some (padded [0x61, 0x62, 0x63]) ∧
      hyMd5sum [0x61, 0x62, 0x63] (UInt64.ofNat 3) (List.replicate 16 0) =
        some (md5 [0x61, 0x62, 0x63]) :=
  @hyMd5sum_eq_md5 [0x61, 0x62, 0x63] (List.replicate 16 0) (by decide) List.length_replicate

/-- The vector of the example program. -/
example : hyMd5sum [0x31, 0x32, 0x33, 0x34, 0x35, 0x36, 0x37, 0x38, 0x39, 0x30] 10
    (List.replicate 16 0) = some [0xe8, 0x07, 0xf1, 0xfc, 0xf8, 0x2d, 0x13, 0x2f,
      0x9b, 0xb0, 0x18, 0xca, 0x67, 0x38, 0xa1, 0x9f] := by decide +kernel

end HyUtils.Md5
