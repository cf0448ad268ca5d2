import HyUtils.Utils.Overrun
import Mathlib.Data.Nat.Bitwise

/-!
# Round trips of bytes and bits

`HyStr2Int2Hex` reads back what `HyHex2Int2Str` printed, and `HyBitStr2Dec` and `HyDec2BitStr` are
inverse to each other on strings of at most 32 bits.

## Main results

* `hex_round_trip`: bytes, printed and read back
* `bits_round_trip`: numbers and strings of bits, both ways
-/

namespace HyUtils.Utils

open Region Str Decimal Scanf Snprintf

/-! ## Bytes -/

section Bytes

theorem groupTexts_append (xs ys : List UInt8) :
    groupTexts (xs ++ ys) = groupTexts xs ++ groupTexts ys := List.map_append

theorem length_flatten_groupTexts (bytes : List UInt8) :
    (groupTexts bytes).flatten.length = 3 * bytes.length := by
  have hlen : (groupTexts bytes).length = bytes.length := List.length_map _
  have hall := length_flatten_take (fun _ => length_of_mem_groupTexts) hlen.ge
  rwa [← hlen, List.take_length, hlen] at hall

theorem isDigit_of_mem_groupTexts {bytes : List UInt8} {c : UInt8}
    (h : c ∈ (groupTexts bytes).flatten) : isDigit c = true := by
  obtain ⟨text, htext, hc⟩ := List.mem_flatten.mp h
  obtain ⟨b, -, rfl⟩ := List.mem_map.mp htext
  exact isDigit_iff.mpr (zeroPadded_bounds hc)

/-- The group of a byte is read back, whatever stands behind it. -/
theorem groupByte_append (c : UInt8) (rest : List UInt8) :
    groupByte (zeroPadded 3 c.toNat ++ rest) = c := by
  have hlen : (zeroPadded 3 c.toNat).length = 3 :=
    length_zeroPadded (by decide) (c.toNat_lt.trans (by decide))
  have hdigits : ∀ x ∈ zeroPadded 3 c.toNat, isDigit x = true := fun x hx =>
    isDigit_iff.mpr (zeroPadded_bounds hx)
  have hne : zeroPadded 3 c.toNat ≠ [] :=
    List.ne_nil_of_length_pos (Nat.lt_of_lt_of_eq (Nat.succ_pos 2) hlen.symm)
  have hword : ∀ x ∈ zeroPadded 3 c.toNat, isSpace x = false := fun x hx =>
    isSpace_of_isDigit (hdigits x hx)
  rw [groupByte, scanWord_append hlen (Nat.succ_pos 2) hword, Option.getD_some,
    atoi_of_digits hne hdigits, value_zeroPadded]
  have hmod : ((c.toNat : ℤ) % 2 ^ 8).toNat = c.toNat := by
    rw [Int.emod_eq_of_lt (Int.natCast_nonneg _) (by exact_mod_cast c.toNat_lt), Int.toNat_natCast]
  rw [UInt8.ofInt, hmod, UInt8.ofNat_toNat]

/-- The loop of `HyStr2Int2Hex` over groups, with the bytes read so far and those still to be
read. -/
theorem str2HexLoop_groups {post : List UInt8} {strLen addrLen : UInt64} :
    ∀ {todo done rest : List UInt8} {fuel : ℕ}, todo ≠ [] → rest.length = todo.length →
      (done ++ todo).length = addrLen.toNat → 3 * addrLen.toNat ≤ strLen.toNat →
      todo.length ≤ fuel →
        str2HexLoop ((groupTexts (done ++ todo)).flatten ++ 0 :: post) strLen addrLen fuel
          (UInt64.ofNat (3 * done.length)) (UInt64.ofNat done.length) (done ++ rest) =
            some (done ++ todo) := by
  intro todo
  induction todo with
  | nil => exact fun h => absurd rfl h
  | cons c todo ih =>
    intro done rest fuel _ hrest haddr hroom hfuel
    obtain ⟨x, rest, rfl⟩ := List.exists_cons_of_length_eq_add_one hrest
    obtain ⟨fuel, rfl⟩ := Nat.exists_eq_add_of_le' (Nat.le_trans (Nat.succ_pos _) hfuel)
    rw [List.length_append, List.length_cons] at haddr
    rw [List.length_cons, List.length_cons, Nat.add_left_inj] at hrest
    -- the string at the index begins with the group of the next byte
    have hread : stringAt ((groupTexts (done ++ c :: todo)).flatten ++ 0 :: post)
        (3 * done.length) = some (groupTexts (c :: todo)).flatten := by
      rw [groupTexts_append, List.flatten_append, List.append_assoc, ← length_flatten_groupTexts]
      apply stringAt_append
      intro h0
      exact absurd (isDigit_of_mem_groupTexts h0) (by decide)
    have hgroup : groupByte (groupTexts (c :: todo)).flatten = c :=
      groupByte_append c (groupTexts todo).flatten
    have hcells : (done ++ x :: rest).length = addrLen.toNat := by
      rw [List.length_append, List.length_cons, hrest]
      exact haddr
    rw [str2HexLoop_round (by omega) hread hcells, hgroup]
    cases todo with
    | nil => rw [if_pos (List.length_eq_zero_iff.mp hrest)]
    | cons c' todo =>
      have hne : rest ≠ [] := List.ne_nil_of_length_pos (hrest ▸ Nat.succ_pos _)
      have hnext := @ih (done ++ [c]) rest fuel (List.cons_ne_nil _ _) hrest
        (by simpa [Nat.add_assoc, Nat.add_comm] using haddr) hroom (Nat.le_of_succ_le_succ hfuel)
      rw [if_neg hne]
      rwa [List.append_assoc done [c], List.singleton_append] at hnext

/-- **Bytes are read back as they were printed**: the groups of an array, in a buffer with room for
a terminator, give the array again. -/
theorem hex_round_trip {addr str out : List UInt8} {addrLen strLen readLen : UInt64}
    (hpos : 0 < addrLen.toNat) (haddr : addr.length = addrLen.toNat)
    (hstr : str.length = strLen.toNat) (hroom : 3 * addrLen.toNat < strLen.toNat)
    (hread : 3 * addrLen.toNat ≤ readLen.toNat) (hout : out.length = addrLen.toNat) :
    ∃ text, hyHex2Int2Str addr addrLen str strLen = some text ∧
      hyStr2Int2Hex text readLen out addrLen = some addr := by
  have hne : addr ≠ [] := List.ne_nil_of_length_pos (haddr ▸ hpos)
  obtain ⟨rest, htext⟩ := hyHex2Int2Str_fits hne haddr hstr (by
    rw [length_flatten_groupTexts, haddr]
    exact hroom)
  refine ⟨_, htext, ?_⟩
  exact @str2HexLoop_groups rest readLen addrLen addr [] out (readLen.toNat + 1) hne
    (hout.trans haddr.symm) haddr hread (by omega)

/-- Two bytes, one with the sign bit set, and a longer reading length. -/
theorem hex_round_trip_two :
    ∃ text, hyHex2Int2Str [7, 200] 2 [1, 1, 1, 1, 1, 1, 1] 7 = some text ∧
      hyStr2Int2Hex text 9 [3, 3] 2 = some [7, 200] :=
  hex_round_trip (by decide) rfl rfl (by decide) (by decide) rfl

end Bytes

/-! ## Bits -/

section Bits

/-- The character of a bit. -/
def bitChar (b : Bool) : UInt8 := if b then 49 else 48

/-- The characters of the low bits of a number, the highest first. -/
def bitChars (num : UInt32) (width : ℕ) : List UInt8 :=
  (List.range width).reverse.map fun i => bitChar (num.toNat.testBit i)

@[simp] theorem length_bitChars (num : UInt32) (width : ℕ) :
    (bitChars num width).length = width := by
  rw [bitChars, List.length_map, List.length_reverse, List.length_range]

theorem getElem?_bitChars (num : UInt32) {width i : ℕ} (h : i < width) :
    (bitChars num width)[i]? = some (bitChar (num.toNat.testBit (width - 1 - i))) := by
  have hlt : width - 1 - i < width := by omega
  rw [bitChars, List.getElem?_map, List.getElem?_reverse (by rwa [List.length_range]),
    List.length_range, List.getElem?_range hlt, Option.map_some]

theorem toNat_two_pow {k : ℕ} (hk : k < 32) : (UInt32.ofNat (2 ^ k)).toNat = 2 ^ k :=
  UInt32.toNat_ofNat_of_lt' (Nat.pow_lt_pow_right (by decide) hk)

theorem bitText_eq (num : UInt32) {i : ℕ} (hi : i < 32) :
    bitText num i = [bitChar (num.toNat.testBit i)] := by
  have hbit : num &&& UInt32.ofNat (1 <<< i) ≠ 0 ↔ num.toNat.testBit i = true := by
    rw [ne_eq, ← UInt32.toNat_inj, UInt32.toNat_and, Nat.one_shiftLeft, toNat_two_pow hi,
      Nat.and_two_pow]
    cases num.toNat.testBit i with
    | false => exact iff_of_false (fun h => h (Nat.zero_mul _)) Bool.false_ne_true
    | true =>
      refine iff_of_true (fun h => ?_) rfl
      exact absurd ((Nat.one_mul _).symm.trans h) (Nat.two_pow_pos i).ne'
  rw [bitText, bitChar]
  simp only [hbit]
  split_ifs <;> rfl

theorem flatten_bitTexts (num : UInt32) {width : ℕ} (h : width ≤ 32) :
    (bitTexts num width).flatten = bitChars num width := by
  have hmap : bitTexts num width =
      (List.range width).reverse.map fun i => [bitChar (num.toNat.testBit i)] := by
    apply List.map_congr_left
    intro i hi
    exact bitText_eq num ((List.mem_range.mp (List.mem_reverse.mp hi)).trans_le h)
  rw [hmap, ← List.flatMap_def, bitChars, List.map_eq_flatMap]

/-- A round of `HyBitStr2Dec` sets the bit of its character. -/
theorem bitStr2Dec_round (num : UInt32) {c : UInt8} (hc : c = 48 ∨ c = 49) {k : ℕ} (hk : k < 32) :
    ∃ num', (stringAt [c, 0] 0).map (fun buf => num ||| UInt32.ofInt (atoi buf * 2 ^ k)) =
        some num' ∧
      ∀ j, num'.toNat.testBit j = true ↔ num.toNat.testBit j = true ∨ c = 49 ∧ k = j := by
  rcases hc with rfl | rfl
  · refine ⟨num ||| UInt32.ofInt (0 * 2 ^ k), rfl, ?_⟩
    intro j
    rw [Int.zero_mul, show UInt32.ofInt 0 = 0 from rfl, UInt32.or_zero]
    simp
  · refine ⟨num ||| UInt32.ofInt (1 * 2 ^ k), rfl, ?_⟩
    intro j
    have hpow : UInt32.ofInt (1 * 2 ^ k) = UInt32.ofNat (2 ^ k) := by
      have hlt : (2 : ℕ) ^ k < 2 ^ 32 := Nat.pow_lt_pow_right (by decide) hk
      rw [Int.one_mul, UInt32.ofInt, Int.emod_eq_of_lt (by positivity) (by exact_mod_cast hlt)]
      norm_cast
    rw [hpow, UInt32.toNat_or, toNat_two_pow hk, Nat.testBit_or, Nat.testBit_two_pow]
    simp

variable {s : List UInt8} {len : UInt64}

/-- After `k` rounds of `HyBitStr2Dec` the `k` highest bits are those of the first characters. -/
theorem bitStr2Dec_rounds (post : List UInt8) (hs : ∀ c ∈ s, c = 48 ∨ c = 49)
    (hlen : s.length = len.toNat) (hle : len.toNat ≤ 32) {k : ℕ} (hk : k ≤ len.toNat) :
    ∃ num : UInt32, (List.range k).foldlM (fun num i => (s ++ post)[i]?.bind fun c =>
        (stringAt [c, 0] 0).map fun buf =>
          num ||| UInt32.ofInt (atoi buf * 2 ^ (len.toNat - 1 - i))) (0 : UInt32) = some num ∧
      ∀ j, num.toNat.testBit j = true ↔
        len.toNat - k ≤ j ∧ j < len.toNat ∧ s[len.toNat - 1 - j]? = some 49 := by
  induction k with
  | zero =>
    refine ⟨0, rfl, fun j => ?_⟩
    have hout : ¬(len.toNat - 0 ≤ j ∧ j < len.toNat ∧ s[len.toNat - 1 - j]? = some 49) := by
      intro h
      exact absurd h.2.1 (Nat.not_lt_of_le h.1)
    refine iff_of_false (fun h => Bool.false_ne_true ?_) hout
    exact (Nat.zero_testBit j).symm.trans h
  | succ k ih =>
    obtain ⟨num, hnum, hbits⟩ := ih (Nat.le_of_succ_le hk)
    have hget : s[k]? = some s[k] := List.getElem?_eq_getElem (by omega)
    have hgetp : (s ++ post)[k]? = some s[k] := by
      rw [List.getElem?_append_left (by omega), hget]
    obtain ⟨num', hround, hbits'⟩ := bitStr2Dec_round num
      (hs s[k] (List.getElem_mem (by omega))) (show len.toNat - 1 - k < 32 by omega)
    refine ⟨num', ?_, fun j => ?_⟩
    · rw [List.range_succ, List.foldlM_append, hnum]
      simp only [Option.bind_eq_bind, Option.bind_some, List.foldlM_cons, List.foldlM_nil, hgetp,
        hround]
      rfl
    · -- bit `len - 1 - k` is the one of this round
      rw [hbits', hbits]
      have hbit : len.toNat - 1 - k = j → s[len.toNat - 1 - j]? = some s[k] := by
        rintro rfl
        rw [← hget]
        congr 1
        omega
      constructor
      · rintro (⟨hge, hlt, hbit⟩ | ⟨h49, rfl⟩)
        · exact ⟨by omega, hlt, hbit⟩
        · exact ⟨by omega, by omega, (hbit rfl).trans (congrArg some h49)⟩
      · rintro ⟨hge, hlt, hset⟩
        by_cases hj : len.toNat - 1 - k = j
        · exact .inr ⟨Option.some.inj ((hbit hj).symm.trans hset), hj⟩
        · exact .inl ⟨by omega, hlt, hset⟩

/-- What `HyBitStr2Dec` makes of a string of bits: the last character is bit 0. -/
theorem hyBitStr2Dec_spec (post : List UInt8) (hs : ∀ c ∈ s, c = 48 ∨ c = 49)
    (hlen : s.length = len.toNat) (hle : len.toNat ≤ 32) :
    ∃ num, hyBitStr2Dec (s ++ post) len = some num ∧
      ∀ j, num.toNat.testBit j = true ↔ j < len.toNat ∧ s[len.toNat - 1 - j]? = some 49 := by
  obtain ⟨num, hnum, hbits⟩ := bitStr2Dec_rounds post hs hlen hle (Nat.le_refl _)
  refine ⟨num, ?_, ?_⟩
  · rw [← hnum, hyBitStr2Dec]
    simp only [Option.map_eq_bind]
    rfl
  · intro j
    rw [hbits j, Nat.sub_self, and_iff_right (Nat.zero_le j)]

theorem bitChar_eq_iff {b : Bool} : bitChar b = 49 ↔ b = true := by
  cases b <;> decide

theorem bitChar_cases (b : Bool) : bitChar b = 48 ∨ bitChar b = 49 := by
  cases b <;> decide

theorem bitChars_cases {num : UInt32} {width : ℕ} {c : UInt8} (h : c ∈ bitChars num width) :
    c = 48 ∨ c = 49 := by
  obtain ⟨i, -, rfl⟩ := List.mem_map.mp h
  exact bitChar_cases _

/-- The characters of a number that the width can hold are read back. -/
theorem hyBitStr2Dec_bitChars {num : UInt32} {width : UInt64} (post : List UInt8)
    (hle : width.toNat ≤ 32) (hnum : num.toNat < 2 ^ width.toNat) :
    hyBitStr2Dec (bitChars num width.toNat ++ post) width = some num := by
  obtain ⟨num', hread, hbits⟩ := hyBitStr2Dec_spec post (fun _ => bitChars_cases)
    (length_bitChars num width.toNat) hle
  have hsame : num' = num := by
    apply UInt32.toNat_inj.mp
    apply Nat.eq_of_testBit_eq
    intro j
    rw [Bool.eq_iff_iff, hbits j]
    rcases Nat.lt_or_ge j width.toNat with hlt | hge
    · have hi : width.toNat - 1 - j < width.toNat := by omega
      rw [getElem?_bitChars num hi, Nat.sub_sub_self (Nat.le_sub_one_of_lt hlt),
        Option.some.injEq, bitChar_eq_iff, and_iff_right hlt]
    · -- the number has no bit there, and the string no character
      rw [Nat.testBit_lt_two_pow (hnum.trans_le (Nat.pow_le_pow_right (by decide) hge))]
      exact iff_of_false (fun h => Nat.not_lt_of_le hge h.1) Bool.false_ne_true
  rw [hread, hsame]

/-- A string of bits is that of the number whose bits it has. -/
theorem bitChars_eq {num : UInt32} {width : ℕ} (hs : ∀ c ∈ s, c = 48 ∨ c = 49)
    (hlen : s.length = width)
    (hbits : ∀ j, num.toNat.testBit j = true ↔ j < width ∧ s[width - 1 - j]? = some 49) :
    bitChars num width = s := by
  apply List.ext_getElem ((length_bitChars num width).trans hlen.symm)
  intro i hi hi'
  have hlt : i < width := hlen ▸ hi'
  have hget : s[i]? = some s[i] := List.getElem?_eq_getElem hi'
  have hbit : num.toNat.testBit (width - 1 - i) = true ↔ s[i] = 49 := by
    rw [hbits, Nat.sub_sub_self (Nat.le_sub_one_of_lt hlt), hget, Option.some.injEq]
    exact and_iff_right (by omega)
  apply Option.some.inj
  rw [← List.getElem?_eq_getElem hi, getElem?_bitChars num hlt]
  congr 1
  rcases hs s[i] (List.getElem_mem hi') with h48 | h49
  · have hclear : num.toNat.testBit (width - 1 - i) = false := by
      rw [← Bool.not_eq_true, hbit, h48]
      decide
    rw [hclear, h48]
    rfl
  · rw [hbit.mpr h49, h49]
    rfl

/-- **Numbers and strings of bits**: of a width from 1 to 32, and with room for a terminator, a
number is read back as it was printed, and a string is printed as it was read. -/
theorem bits_round_trip {width strLen : UInt64} {bitStr : List UInt8} (hpos : 1 ≤ width.toNat)
    (hle : width.toNat ≤ 32) (hroom : width.toNat < strLen.toNat)
    (hstr : bitStr.length = strLen.toNat) :
    (∀ num : UInt32, num.toNat < 2 ^ width.toNat →
        ∃ text, hyDec2BitStr num width bitStr strLen = some text ∧
          hyBitStr2Dec text width = some num) ∧
      ∀ s post : List UInt8, s.length = width.toNat → (∀ c ∈ s, c = 48 ∨ c = 49) →
        ∃ num rest, hyBitStr2Dec (s ++ post) width = some num ∧
          hyDec2BitStr num width bitStr strLen = some (s ++ 0 :: rest) := by
  have hprint : ∀ num, ∃ rest,
      hyDec2BitStr num width bitStr strLen = some (bitChars num width.toNat ++ 0 :: rest) := by
    intro num
    rw [← flatten_bitTexts num hle]
    apply hyDec2BitStr_fits num hpos hstr
    rwa [flatten_bitTexts num hle, length_bitChars]
  constructor
  · intro num hnum
    obtain ⟨rest, htext⟩ := hprint num
    exact ⟨_, htext, hyBitStr2Dec_bitChars (0 :: rest) hle hnum⟩
  · intro s post hlen hs
    obtain ⟨num, hread, hbits⟩ := hyBitStr2Dec_spec post hs hlen hle
    obtain ⟨rest, htext⟩ := hprint num
    rw [bitChars_eq hs hlen hbits] at htext
    exact ⟨num, rest, hread, htext⟩

/-- All 32 bits, the highest set. -/
theorem bits_round_trip_full :
    (∀ num : UInt32, num.toNat < 2 ^ (32 : UInt64).toNat →
        ∃ text, hyDec2BitStr num 32 (List.replicate 33 7) 33 = some text ∧
          hyBitStr2Dec text 32 = some num) ∧
      ∀ s post : List UInt8, s.length = (32 : UInt64).toNat → (∀ c ∈ s, c = 48 ∨ c = 49) →
        ∃ num rest, hyBitStr2Dec (s ++ post) 32 = some num ∧
          hyDec2BitStr num 32 (List.replicate 33 7) 33 = some (s ++ 0 :: rest) :=
  bits_round_trip (by decide) (by decide) (by decide) List.length_replicate

end Bits

end HyUtils.Utils
