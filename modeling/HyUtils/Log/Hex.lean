import HyUtils.Foundation.HexText
import HyUtils.Log.Model

/-!
# The hex dump of the log

`HyLogHex` of `src/src/hy_log.c` prints a line with the length, and then the bytes, sixteen to a
row, with their characters where `flag` asks for them. The dump is the bytes: each is read back
from the place its index gives.

## Main definitions

* `hyLogHex`: the function, with what it prints
* `hexPlace`: where the digits of a byte stand

## Main results

* `hyLogHex_shows`: the bytes read are in bounds exactly when the buffer has the length, and the
  printed bytes are the bytes of the buffer
-/

namespace HyUtils.Log

open Decimal HexText Region

/-- The text of `"[%s %d]len: %zu \r\n"`. -/
def hexHeader (name : List UInt8) (line : UInt32) (len : UInt64) : List UInt8 :=
  91 :: (name ++ 32 :: (prId32 line ++ [93, 108, 101, 110, 58, 32] ++ printed len.toNat ++
    [32, 13, 10]))

/-- What is printed of a byte. -/
def hexRecord (flag : Int8) (c : UInt8) : List UInt8 :=
  if flag = 1 then
    if c = 0x0d ∨ c = 0x0a ∨ c < 32 ∨ c ≥ 127 then hexByte c ++ [91, 32, 93, 32, 32]
    else hexByte c ++ [91, c, 93, 32, 32]
  else hexByte c ++ [32]

/-- A round of the loop: what is printed so far, and `cnt`. -/
def hexRound (flag : Int8) (s : List UInt8 × UInt8) (c : UInt8) : List UInt8 × UInt8 :=
  let out := s.1 ++ hexRecord flag c
  let cnt := s.2 + 1
  if cnt = 16 then (out ++ [13, 10], 0) else (out, cnt)

/-- `HyLogHex`, with what it prints. -/
def hyLogHex (name : List UInt8) (line : UInt32) (buf : List UInt8) (len : UInt64) (flag : Int8) :
    Option (List UInt8) :=
  if len ≤ 0 then some []
  else do
    let s ← (List.range len.toNat).foldlM
      (fun s i => buf[i]?.bind fun c => some (hexRound flag s c)) (hexHeader name line len, 0)
    return s.1 ++ [13, 10]

/-- The length of what is printed of a byte. -/
def recordLen (flag : Int8) : ℕ := if flag = 1 then 7 else 3

/-- The place of a byte behind the header: the bytes before it, and the ends of the full rows. -/
def hexPlace (flag : Int8) (i : ℕ) : ℕ := recordLen flag * i + 2 * (i / 16)

section Hex

variable {flag : Int8} {buf : List UInt8}

theorem exists_hexRecord (flag : Int8) (c : UInt8) :
    ∃ rest, hexRecord flag c = hexByte c ++ rest ∧ rest.length + 2 = recordLen flag := by
  rw [hexRecord, recordLen]
  split_ifs
  · exact ⟨_, rfl, rfl⟩
  · exact ⟨_, rfl, rfl⟩
  · exact ⟨_, rfl, rfl⟩

theorem hexPlace_add_le {i n : ℕ} (h : i < n) : hexPlace flag i + 2 ≤ hexPlace flag n := by
  have hdiv : i / 16 ≤ n / 16 := Nat.div_le_div_right h.le
  rw [hexPlace, hexPlace, recordLen]
  split_ifs <;> omega

/-- The rounds of the loop print the bytes at their places. -/
theorem hexRound_foldl (flag : Int8) (header bytes : List UInt8) :
    ∃ text cnt, bytes.foldl (hexRound flag) (header, 0) = (header ++ text, cnt) ∧
      cnt.toNat = bytes.length % 16 ∧ text.length = hexPlace flag bytes.length ∧
      readBack (hexPlace flag) bytes.length text = bytes := by
  -- the induction is on the byte printed last
  induction bytes using List.reverseRecOn with
  | nil => exact ⟨[], 0, by rw [List.foldl_nil, List.append_nil], rfl, rfl, rfl⟩
  | append_singleton bytes c ih =>
    obtain ⟨text, cnt, hfold, hcnt, hlen, hback⟩ := ih
    obtain ⟨rest, hrecord, hrest⟩ := exists_hexRecord flag c
    have hnext : (cnt + 1).toNat = bytes.length % 16 + 1 := by
      rw [UInt8.toNat_add, hcnt, show (1 : UInt8).toNat = 1 from rfl]
      omega
    have hplace : ∀ i < bytes.length, hexPlace flag i + 2 ≤ text.length := fun i hi =>
      hlen ▸ hexPlace_add_le hi
    rw [List.foldl_append, hfold, List.foldl_cons, List.foldl_nil, hexRound, hrecord,
      List.length_append, List.length_singleton]
    by_cases hrow : cnt + 1 = 16
    · have hfull : bytes.length % 16 + 1 = 16 := by
        rw [← hnext, hrow]
        rfl
      refine ⟨text ++ (hexByte c ++ (rest ++ [13, 10])), 0, ?_, ?_, ?_, ?_⟩
      · simp [hrow]
      · rw [show (0 : UInt8).toNat = 0 from rfl]
        omega
      · rw [hexPlace] at hlen ⊢
        simp only [List.length_append, hlen, hexByte, List.length_cons, List.length_nil, ← hrest]
        rw [show (bytes.length + 1) / 16 = bytes.length / 16 + 1 by omega]
        ring
      · rw [readBack_concat c _ hlen.symm hplace, hback]
    · have hpart : bytes.length % 16 + 1 ≠ 16 := fun heq => hrow <| by
        apply UInt8.toNat_inj.mp
        rw [hnext, heq]
        rfl
      refine ⟨text ++ (hexByte c ++ rest), cnt + 1, ?_, ?_, ?_, ?_⟩
      · simp [hrow]
      · omega
      · rw [hexPlace] at hlen ⊢
        simp only [List.length_append, hlen, hexByte, List.length_cons, List.length_nil, ← hrest]
        rw [show (bytes.length + 1) / 16 = bytes.length / 16 by omega]
        ring
      · rw [readBack_concat c _ hlen.symm hplace, hback]

/-- What `HyLogHex` prints of a buffer that has the length. -/
theorem exists_hyLogHex (name : List UInt8) (line : UInt32) (flag : Int8) {len : UInt64}
    (hlen : 0 < len) (hbuf : len.toNat ≤ buf.length) :
    ∃ text, hyLogHex name line buf len flag = some (hexHeader name line len ++ text) ∧
      text.length = hexPlace flag len.toNat + 2 ∧
      readBack (hexPlace flag) len.toNat text = buf.take len.toNat := by
  have htake : (buf.take len.toNat).length = len.toNat := List.length_take_of_le hbuf
  obtain ⟨text, cnt, hfold, -, htext, hback⟩ :=
    hexRound_foldl flag (hexHeader name line len) (buf.take len.toNat)
  rw [htake] at htext hback
  refine ⟨text ++ [13, 10], ?_, ?_, ?_⟩
  · have hpure : (buf.take len.toNat).foldlM (fun s c => some (hexRound flag s c))
        (hexHeader name line len, 0) = some (hexHeader name line len ++ text, cnt) := by
      rw [← hfold]
      exact List.foldlM_pure
    rw [hyLogHex, if_neg (UInt64.not_le.mpr hlen),
      foldlM_cells (fun s c => some (hexRound flag s c)) hbuf, hpure]
    simp
  · rw [List.length_append, htext]
    rfl
  · rw [readBack_append fun i hi => htext ▸ hexPlace_add_le hi, hback]

/-- **The dump shows the bytes**: `HyLogHex` stays within its buffer exactly when the buffer has the
length passed, and the bytes are then read back from what it prints behind the header. -/
theorem hyLogHex_shows (name : List UInt8) (line : UInt32) (buf : List UInt8) (flag : Int8)
    {len : UInt64} (hlen : 0 < len) :
    ((hyLogHex name line buf len flag).isSome ↔ len.toNat ≤ buf.length) ∧
      ∀ out, hyLogHex name line buf len flag = some out →
        ∃ text, out = hexHeader name line len ++ text ∧
          text.length = hexPlace flag len.toNat + 2 ∧
          readBack (hexPlace flag) len.toNat text = buf.take len.toNat := by
  rcases Nat.lt_or_ge buf.length len.toNat with hshort | hbuf
  · have hnone : hyLogHex name line buf len flag = none := by
      rw [hyLogHex, if_neg (UInt64.not_le.mpr hlen),
        foldlM_cells_eq_none (fun s c => some (hexRound flag s c)) hshort]
      rfl
    rw [hnone]
    exact ⟨iff_of_false Bool.false_ne_true (Nat.not_le.mpr hshort), fun out hout => by cases hout⟩
  · obtain ⟨text, hout, htext, hback⟩ := exists_hyLogHex name line flag hlen hbuf
    rw [hout]
    refine ⟨iff_of_true rfl hbuf, fun out heq => ⟨text, ?_, htext, hback⟩⟩
    exact (Option.some.inj heq).symm

theorem hyLogHex_shows_three :
    ((hyLogHex [109] 7 [72, 105, 10] 3 1).isSome ↔ (3 : UInt64).toNat ≤ [72, 105, 10].length) ∧
      ∀ out, hyLogHex [109] 7 [72, 105, 10] 3 1 = some out →
        ∃ text, out = hexHeader [109] 7 3 ++ text ∧
          text.length = hexPlace 1 (3 : UInt64).toNat + 2 ∧
          readBack (hexPlace 1) (3 : UInt64).toNat text =
            [72, 105, 10].take (3 : UInt64).toNat :=
  hyLogHex_shows [109] 7 [72, 105, 10] 1 (by decide)

end Hex

end HyUtils.Log
