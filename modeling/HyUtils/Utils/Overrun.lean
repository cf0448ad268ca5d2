import HyUtils.Utils.Convert

/-!
# The converters and the size of their output

Each converter is given the size of the buffer it writes to. Those that print pass `snprintf` the
room left as an unsigned difference, and go on after a text was cut: a further text is then written
behind the buffer. The one that reads compares its count with the size after it has written.

## Main results

* `hyHex2Int2Str_isSome_iff`, `hyDec2BitStr_isSome_iff`, `hyIpInt2Str_isSome_iff`,
  `hyStr2Int2Hex_isSome_iff`: when each converter stays within its buffer
* `converters_fit_iff`: all four
-/

namespace HyUtils.Utils

open Region Str Decimal Scanf Snprintf LittleEndian

/-! ## Printing bytes and bits -/

theorem length_of_mem_groupTexts {bytes : List UInt8} {text : List UInt8}
    (h : text ∈ groupTexts bytes) : text.length = 3 := by
  obtain ⟨c, -, rfl⟩ := List.mem_map.mp h
  exact length_zeroPadded (by decide) (c.toNat_lt.trans (by decide))

theorem length_of_mem_bitTexts {num : UInt32} {width : ℕ} {text : List UInt8}
    (h : text ∈ bitTexts num width) : text.length = 1 := by
  obtain ⟨i, -, rfl⟩ := List.mem_map.mp h
  rw [bitText]
  split_ifs <;> rfl

/-- A cursor that moves by 3 meets every multiple of 3 below `2 ^ 64`, so it passes the end of any
smaller buffer before it wraps. -/
theorem forall_three_mul_mod_le_iff {n size : ℕ} (hsize : size < 2 ^ 64) :
    (∀ k < n, 3 * k % 2 ^ 64 ≤ size) ↔ n = 0 ∨ 3 * (n - 1) ≤ size ∨ size = 2 ^ 64 - 1 := by
  constructor
  · intro h
    rcases Nat.eq_zero_or_pos n with h0 | hpos
    · exact .inl h0
    -- the largest multiple below `2 ^ 64` is `2 ^ 64 - 1` itself
    rcases Nat.lt_or_ge ((2 ^ 64 - 1) / 3) n with hlt | hge
    · have hlast := h _ hlt
      exact .inr (.inr (by omega))
    · have hlast := h (n - 1) (Nat.sub_lt hpos Nat.one_pos)
      rcases Nat.lt_or_ge (3 * (n - 1)) (2 ^ 64) with hfit | hwrap
      · rw [Nat.mod_eq_of_lt hfit] at hlast
        exact .inr (.inl hlast)
      · omega
  · rintro (rfl | hle | rfl) k hk
    · exact absurd hk (Nat.not_lt_zero k)
    · exact (Nat.mod_le _ _).trans (by omega)
    · exact Nat.le_sub_one_of_lt (Nat.mod_lt _ (by decide))

/-- **`HyHex2Int2Str`** stays within its buffer exactly when the groups before the last one fit. -/
theorem hyHex2Int2Str_isSome_iff {addr str : List UInt8} {addrLen strLen : UInt64}
    (haddr : addr.length = addrLen.toNat) (hstr : str.length = strLen.toNat) :
    (hyHex2Int2Str addr addrLen str strLen).isSome ↔
      addrLen.toNat = 0 ∨ 3 * (addrLen.toNat - 1) ≤ strLen.toNat ∨
        strLen.toNat = 2 ^ 64 - 1 := by
  have hlen : (groupTexts addr).length = addrLen.toNat := by
    rw [groupTexts, List.length_map, haddr]
  rw [hyHex2Int2Str_eq addr str strLen haddr, Option.isSome_map,
    appendTo_foldlM_start_isSome_iff _ hstr, ← forall_three_mul_mod_le_iff strLen.toNat_lt, hlen]
  apply forall₂_congr
  intro k hk
  rw [length_flatten_take (fun _ => length_of_mem_groupTexts) (hk.le.trans_eq hlen.symm)]

/-- **`HyDec2BitStr`** stays within its buffer exactly when the bits before the last one fit. -/
theorem hyDec2BitStr_isSome_iff {num : UInt32} {bitStr : List UInt8} {numLen strLen : UInt64}
    (hstr : bitStr.length = strLen.toNat) :
    (hyDec2BitStr num numLen bitStr strLen).isSome ↔ numLen.toNat ≤ strLen.toNat + 1 := by
  have hlen : (bitTexts num numLen.toNat).length = numLen.toNat := by
    rw [bitTexts, List.length_map, List.length_reverse, List.length_range]
  have hlt := numLen.toNat_lt
  rw [hyDec2BitStr_eq num numLen hstr, Option.isSome_map,
    appendTo_foldlM_start_isSome_iff _ List.length_replicate, hlen]
  have hcut : ∀ k < numLen.toNat,
      ((bitTexts num numLen.toNat).take k).flatten.length % 2 ^ 64 = k := by
    intro k hk
    have hone := length_flatten_take (fun _ => length_of_mem_bitTexts) (hk.le.trans_eq hlen.symm)
    rw [hone, Nat.one_mul, Nat.mod_eq_of_lt (hk.trans hlt)]
  constructor
  · intro h
    rcases Nat.eq_zero_or_pos numLen.toNat with h0 | hpos
    · exact h0 ▸ Nat.zero_le _
    · have hlast := h _ (Nat.sub_lt hpos Nat.one_pos)
      rw [hcut _ (Nat.sub_lt hpos Nat.one_pos)] at hlast
      exact Nat.sub_le_iff_le_add.mp hlast
  · intro h k hk
    rw [hcut k hk]
    exact Nat.le_of_lt_succ (hk.trans_le h)

/-! ## Printing an address -/

/-- **`HyIpInt2Str`** stays within its buffer exactly when the address and a terminator fit. -/
theorem hyIpInt2Str_isSome_iff {ipNum : UInt32} {ipStr : List UInt8} {ipStrLen : UInt64}
    (hlen : ipStr.length = ipStrLen.toNat) :
    (hyIpInt2Str ipNum ipStr ipStrLen).isSome ↔
      (dottedQuad ipNum).length + 1 ≤ ipStrLen.toNat := by
  constructor
  · intro h
    rw [hyIpInt2Str_eq ipNum hlen] at h
    obtain ⟨ipStr', hsome⟩ := Option.isSome_iff_exists.mp h
    obtain ⟨s, hall, hstore⟩ := Option.bind_eq_some_iff.mp hsome
    obtain ⟨hcur, hbuf, -⟩ := appendTo_foldlM_eq_some List.length_replicate hall
    -- the last byte written is the one behind the last number
    have hlast : (s.2 - 1).toNat = (dottedQuad ipNum).length := by
      rw [hcur, flatten_octetTexts, List.length_append, List.length_singleton]
      change (0 + UInt64.ofNat ((dottedQuad ipNum).length + 1) - 1).toNat = _
      rw [UInt64.zero_add, UInt64.ofNat_add]
      change (UInt64.ofNat _ + 1 - 1).toNat = _
      rw [UInt64.add_sub_cancel]
      exact UInt64.toNat_ofNat_of_lt' ((length_dottedQuad_le ipNum).trans_lt (by decide))
    by_contra hlt
    rw [store_eq_none (by rw [hlast, hbuf, List.length_singleton]; exact Nat.lt_of_not_le hlt)]
      at hstore
    cases hstore
  · intro h
    obtain ⟨rest, hsome⟩ := hyIpInt2Str_fits ipNum hlen h
    rw [hsome]
    rfl

/-! ## Reading groups -/

/-- With a cell left to write, the loop of `HyStr2Int2Hex` ends within its array. -/
theorem str2HexLoop_isSome {str : List UInt8} {strLen addrLen : UInt64}
    (hread : ∀ k < addrLen.toNat, 3 * k < strLen.toNat → ∃ s, stringAt str (3 * k) = some s) :
    ∀ {rest pre : List UInt8} {fuel : ℕ}, rest ≠ [] → (pre ++ rest).length = addrLen.toNat →
      3 * pre.length < 2 ^ 64 → strLen.toNat - 3 * pre.length < fuel →
        (str2HexLoop str strLen addrLen fuel (UInt64.ofNat (3 * pre.length))
          (UInt64.ofNat pre.length) (pre ++ rest)).isSome := by
  intro rest
  induction rest with
  | nil => exact fun h => absurd rfl h
  | cons x rest ih =>
    intro pre fuel _ haddr hsmall hfuel
    obtain ⟨fuel, rfl⟩ := Nat.exists_eq_succ_of_ne_zero (Nat.ne_of_gt (Nat.zero_lt_of_lt hfuel))
    rcases Nat.lt_or_ge (3 * pre.length) strLen.toNat with hlt | hge
    · have hcell : pre.length < addrLen.toNat := by
        rw [← haddr, List.length_append, List.length_cons]
        omega
      obtain ⟨s, hs⟩ := hread pre.length hcell hlt
      rw [str2HexLoop_round hlt hs haddr]
      split_ifs with hnil
      · rfl
      · have hnext : (pre ++ [groupByte s]).length = pre.length + 1 := List.length_append
        apply ih hnil
        · rw [← haddr, List.length_append, hnext, List.length_append, List.length_cons]
          omega
        · rw [hnext]
          exact three_mul_succ_lt hlt
        · rw [hnext]
          omega
    · -- the string ends before the array does
      rw [str2HexLoop, if_neg fun h => Nat.not_lt_of_le hge ((ofNat_three_mul_lt_iff hsmall).mp h)]
      rfl

/-- **`HyStr2Int2Hex`** stays within its array exactly when it has a cell for the first byte, or
no byte is read. -/
theorem hyStr2Int2Hex_isSome_iff {str addr : List UInt8} {strLen addrLen : UInt64}
    (haddr : addr.length = addrLen.toNat)
    (hstr : (0 : UInt8) ∈ str.drop (3 * min ((strLen.toNat - 1) / 3) (addrLen.toNat - 1))) :
    (hyStr2Int2Hex str strLen addr addrLen).isSome ↔ strLen.toNat = 0 ∨ 1 ≤ addrLen.toNat := by
  -- the last group that is read is the last to begin in the string, or to have a cell
  have hread : ∀ k ≤ min ((strLen.toNat - 1) / 3) (addrLen.toNat - 1),
      ∃ s, stringAt str (3 * k) = some s := by
    intro k hk
    apply exists_stringAt
    obtain ⟨d, hd⟩ := Nat.exists_eq_add_of_le hk
    rw [hd, Nat.mul_add, ← List.drop_drop] at hstr
    exact List.mem_of_mem_drop hstr
  rcases Nat.eq_zero_or_pos strLen.toNat with h0 | hpos
  · have hnone : ¬(0 : UInt64) < strLen := fun h => absurd (UInt64.lt_iff_toNat_lt.mp h) (by
      rw [h0]
      exact Nat.not_lt_zero _)
    rw [hyStr2Int2Hex, str2HexLoop, if_neg hnone]
    exact iff_of_true rfl (.inl h0)
  rw [or_iff_right hpos.ne']
  constructor
  · intro h
    by_contra hlt
    -- the byte of the first group is stored before the count is compared
    have hnil : addr = [] := List.length_eq_zero_iff.mp (by omega)
    obtain ⟨s, hs⟩ := hread 0 (Nat.zero_le _)
    have hfirst : (0 : UInt64) < strLen := UInt64.lt_iff_toNat_lt.mpr hpos
    rw [hyStr2Int2Hex, str2HexLoop, if_pos hfirst, show stringAt str (0 : UInt64).toNat = some s
      from hs, hnil] at h
    exact absurd h Bool.false_ne_true
  · intro h
    have hne : addr ≠ [] := List.ne_nil_of_length_pos (by omega)
    refine @str2HexLoop_isSome str strLen addrLen (fun k hk hlt => hread k ?_) addr []
      (strLen.toNat + 1) hne haddr (by decide) (Nat.lt_succ_of_le (Nat.sub_le _ _))
    omega

/-! ## All four -/

/-- **The converters stay within their buffers**: `HyHex2Int2Str` exactly when the groups before
the last one fit, `HyDec2BitStr` when the bits before the last one fit, `HyIpInt2Str` when the
address and a terminator fit, and `HyStr2Int2Hex` when its array has a cell or nothing is read. -/
theorem converters_fit_iff {bytes text : List UInt8} {bytesLen textLen : UInt64}
    (hbytes : bytes.length = bytesLen.toNat) (htext : text.length = textLen.toNat) :
    ((hyHex2Int2Str bytes bytesLen text textLen).isSome ↔
      bytesLen.toNat = 0 ∨ 3 * (bytesLen.toNat - 1) ≤ textLen.toNat ∨
        textLen.toNat = 2 ^ 64 - 1) ∧
    (∀ num numLen, (hyDec2BitStr num numLen text textLen).isSome ↔
      numLen.toNat ≤ textLen.toNat + 1) ∧
    (∀ ipNum, (hyIpInt2Str ipNum text textLen).isSome ↔
      (dottedQuad ipNum).length + 1 ≤ textLen.toNat) ∧
    ∀ (str : List UInt8) (strLen : UInt64),
      (0 : UInt8) ∈ str.drop (3 * min ((strLen.toNat - 1) / 3) (bytesLen.toNat - 1)) →
        ((hyStr2Int2Hex str strLen bytes bytesLen).isSome ↔
          strLen.toNat = 0 ∨ 1 ≤ bytesLen.toNat) := by
  refine ⟨hyHex2Int2Str_isSome_iff hbytes htext, ?_, ?_, ?_⟩
  · intro num numLen
    exact hyDec2BitStr_isSome_iff htext
  · intro ipNum
    exact hyIpInt2Str_isSome_iff htext
  · intro str strLen hstr
    exact hyStr2Int2Hex_isSome_iff hbytes hstr

/-- Two bytes into a buffer of two, eight bits into one of three, an address into one of four, and
a group into no array at all. -/
theorem converters_overrun :
    hyHex2Int2Str [1, 2] 2 [9, 9] 2 = none ∧ hyDec2BitStr 1 8 [0, 0, 0] 3 = none ∧
      hyIpInt2Str 0x01020304 [0, 0, 0, 0] 4 = none ∧
      hyStr2Int2Hex [48, 48, 49, 0] 3 [] 0 = none := by
  decide +kernel

theorem converters_fit_iff_small :
    ((hyHex2Int2Str [255] 1 [9, 9] 2).isSome ↔
        (1 : UInt64).toNat = 0 ∨ 3 * ((1 : UInt64).toNat - 1) ≤ (2 : UInt64).toNat ∨
          (2 : UInt64).toNat = 2 ^ 64 - 1) ∧
      ((hyDec2BitStr 5 3 [9, 9] 2).isSome ↔ (3 : UInt64).toNat ≤ (2 : UInt64).toNat + 1) ∧
      ((hyIpInt2Str 1 [9, 9] 2).isSome ↔ (dottedQuad 1).length + 1 ≤ (2 : UInt64).toNat) ∧
      ((hyStr2Int2Hex [48, 49, 54, 0] 3 [255] 1).isSome ↔
        (3 : UInt64).toNat = 0 ∨ 1 ≤ (1 : UInt64).toNat) := by
  obtain ⟨hbytes, hbits, haddress, hgroups⟩ := @converters_fit_iff [255] [9, 9] 1 2 rfl rfl
  exact ⟨hbytes, hbits 5 3, haddress 1, hgroups [48, 49, 54, 0] 3 (by decide)⟩

end HyUtils.Utils
