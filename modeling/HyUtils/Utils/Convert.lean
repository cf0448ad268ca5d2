import HyUtils.Foundation.LittleEndian
import HyUtils.Foundation.Scanf
import HyUtils.Foundation.Snprintf
import HyUtils.Str.CopyRight

/-!
# The converters

`src/src/hy_utils.c`: the functions that turn numbers, bytes and bits into text and back. Those that
print append one text after another at a cursor of type `size_t`; what is read from a string is read
by `sscanf` and `atoi`. Pointers are not `NULL`, and shifts are taken modulo `2 ^ 32`.

## Main definitions

* `hyIpStr2Int`, `hyIpInt2Str`: addresses and dotted decimals
* `hyHex2Int2Str`, `hyStr2Int2Hex`: bytes and groups of three digits
* `hyBitStr2Dec`, `hyDec2BitStr`: numbers and strings of bits

## Main results

* `hyHex2Int2Str_eq`, `hyDec2BitStr_eq`, `hyIpInt2Str_eq`: the texts that are appended
-/

namespace HyUtils.Utils

open Region Str Decimal Scanf Snprintf LittleEndian

/-- The string at an offset of a region. -/
def stringAt (r : List UInt8) (off : ℕ) : Option (List UInt8) :=
  (strlen r off).map fun n => (r.drop off).take n

/-! ## Addresses -/

/-- `IP_INT_DOT_LEN`. -/
abbrev ipIntDotLen : ℕ := 4

/-- `IP_STR_DOT_LEN`. -/
abbrev ipStrDotLen : ℕ := 16

/-- The format `"%d.%d.%d.%d"`. -/
def ipFormat : List Directive := [.int, .lit 46, .int, .lit 46, .int, .lit 46, .int]

/-- The array `num` after `sscanf`: the numbers converted are stored, and the other entries keep
what they held. -/
def stored (toInt : ℤ → Int32) (num : Fin ipIntDotLen → Int32) (parsed : List ℤ) :
    Fin ipIntDotLen → Int32 :=
  fun i => (parsed[i.val]?).elim (num i) toInt

/-- The loop of `HyIpStr2Int`. -/
def ipSum (num : Fin ipIntDotLen → Int32) : UInt32 :=
  (List.finRange ipIntDotLen).foldl
    (fun ipNum i => ipNum + (num i &&& 0xff).toUInt32 <<< UInt32.ofNat (8 * (3 - i.val))) 0

/-- `HyIpStr2Int`: the value stored through `ip_num`. The array starts as `num`, which the function
does not initialise; `toInt` is how `sscanf` stores a number in an `int`. -/
def hyIpStr2Int (toInt : ℤ → Int32) (num : Fin ipIntDotLen → Int32) (ipStr : List UInt8) :
    Option UInt32 := do
  let s ← stringAt ipStr 0
  return ipSum (stored toInt num (sscanf ipFormat s))

/-- `HyIpInt2Str`, on a little-endian host. -/
def hyIpInt2Str (ipNum : UInt32) (ipStr : List UInt8) (ipStrLen : UInt64) :
    Option (List UInt8) := do
  let tmp := leBytes 4 ipNum.toNat
  let ipStr ← memset ipStr 0 0 ipStrLen.toNat
  let (ipStr, len) ← (List.range ipIntDotLen).foldlM (fun s i => do
    let c ← tmp[ipIntDotLen - 1 - i]?
    appendTo ipStrLen s (printed c.toNat ++ [46])) (ipStr, (0 : UInt64))
  store ipStr (len - 1).toNat [0]

/-! ## Bytes -/

/-- `HyHex2Int2Str`: the buffer `str` after the call. -/
def hyHex2Int2Str (addr : List UInt8) (addrLen : UInt64) (str : List UInt8) (strLen : UInt64) :
    Option (List UInt8) := do
  let (str, _) ← (List.range addrLen.toNat).foldlM (fun s i => do
    let c ← addr[i]?
    appendTo strLen s (zeroPadded 3 c.toNat)) (str, (0 : UInt64))
  return str

/-- The loop of `HyStr2Int2Hex`. -/
def str2HexLoop (str : List UInt8) (strLen addrLen : UInt64) :
    ℕ → UInt64 → UInt64 → List UInt8 → Option (List UInt8)
  | 0, _, _, _ => none
  | fuel + 1, i, addrCnt, addr =>
    if i < strLen then do
      let s ← stringAt str i.toNat
      -- without a word `buf` stays empty
      let buf := (scanWord 3 s).getD []
      let num := UInt8.ofInt (atoi buf)
      let addr ← store addr addrCnt.toNat [num]
      let addrCnt := addrCnt + 1
      if addrCnt = addrLen then return addr
      else str2HexLoop str strLen addrLen fuel (i + 3) addrCnt addr
    else some addr

/-- `HyStr2Int2Hex`: the array `addr` after the call. The index grows with each round, so there are
at most `str_len` of them. -/
def hyStr2Int2Hex (str : List UInt8) (strLen : UInt64) (addr : List UInt8) (addrLen : UInt64) :
    Option (List UInt8) :=
  str2HexLoop str strLen addrLen (strLen.toNat + 1) 0 0 addr

/-! ## Bits -/

/-- `HyBitStr2Dec`. -/
def hyBitStr2Dec (bitStr : List UInt8) (len : UInt64) : Option UInt32 :=
  (List.range len.toNat).foldlM (fun num i => do
    let c ← bitStr[i]?
    let buf ← stringAt [c, 0] 0
    return num ||| UInt32.ofInt (atoi buf * 2 ^ (len.toNat - 1 - i))) 0

/-- The text of a bit of `num`. -/
def bitText (num : UInt32) (i : ℕ) : List UInt8 :=
  if num &&& UInt32.ofNat (1 <<< i) ≠ 0 then [49] else [48]

/-- `HyDec2BitStr`: the buffer `bit_str` after the call. The index runs one below that of the
source. -/
def hyDec2BitStr (num : UInt32) (numLen : UInt64) (bitStr : List UInt8) (strLen : UInt64) :
    Option (List UInt8) := do
  let bitStr ← memset bitStr 0 0 strLen.toNat
  let (bitStr, _) ← (List.range numLen.toNat).reverse.foldlM
    (fun s i => appendTo strLen s (bitText num i)) (bitStr, (0 : UInt64))
  return bitStr

/-! ## The texts that are appended -/

/-- The texts of an address, each with its dot. -/
def octetTexts (ipNum : UInt32) : List (List UInt8) :=
  (leBytes 4 ipNum.toNat).reverse.map fun c => printed c.toNat ++ [46]

/-- The texts of bytes. -/
def groupTexts (bytes : List UInt8) : List (List UInt8) := bytes.map fun c => zeroPadded 3 c.toNat

/-- The texts of the bits of a number, the highest first. -/
def bitTexts (num : UInt32) (width : ℕ) : List (List UInt8) :=
  (List.range width).reverse.map (bitText num)

theorem hyIpInt2Str_eq (ipNum : UInt32) {ipStr : List UInt8} {ipStrLen : UInt64}
    (h : ipStr.length = ipStrLen.toNat) :
    hyIpInt2Str ipNum ipStr ipStrLen =
      ((octetTexts ipNum).foldlM (appendTo ipStrLen)
        (List.replicate ipStrLen.toNat 0, (0 : UInt64))).bind
          fun s => store s.1 (s.2 - 1).toNat [0] := by
  rw [hyIpInt2Str, memset_all h]
  rfl

theorem hyHex2Int2Str_eq (addr : List UInt8) {addrLen : UInt64} (str : List UInt8)
    (strLen : UInt64) (h : addr.length = addrLen.toNat) :
    hyHex2Int2Str addr addrLen str strLen =
      ((groupTexts addr).foldlM (appendTo strLen) (str, (0 : UInt64))).map (·.1) := by
  have hcells := foldlM_cells (fun s c => appendTo strLen s (zeroPadded 3 (UInt8.toNat c)))
    h.ge (str, (0 : UInt64))
  rw [List.take_of_length_le h.le] at hcells
  rw [groupTexts, List.foldlM_map, ← hcells, Option.map_eq_bind]
  rfl

theorem hyDec2BitStr_eq (num : UInt32) (numLen : UInt64) {bitStr : List UInt8} {strLen : UInt64}
    (h : bitStr.length = strLen.toNat) :
    hyDec2BitStr num numLen bitStr strLen =
      ((bitTexts num numLen.toNat).foldlM (appendTo strLen)
        (List.replicate strLen.toNat 0, (0 : UInt64))).map (·.1) := by
  rw [hyDec2BitStr, memset_all h, bitTexts, List.foldlM_map, Option.map_eq_bind]
  rfl

/-! ## Reading groups -/

theorem stringAt_append {pre s post : List UInt8} (hs : (0 : UInt8) ∉ s) :
    stringAt (pre ++ (s ++ 0 :: post)) pre.length = some s := by
  rw [stringAt, strlen_of_append hs, Option.map_some, List.drop_left, List.take_left]

/-- A terminator at or behind an offset ends a string there. -/
theorem exists_stringAt {r : List UInt8} {off : ℕ} (h : (0 : UInt8) ∈ r.drop off) :
    ∃ s, stringAt r off = some s := by
  have hfound : (strlen r off).isSome := by
    rw [strlen, List.findIdx?_isSome, List.any_eq_true]
    exact ⟨0, h, rfl⟩
  obtain ⟨n, hn⟩ := Option.isSome_iff_exists.mp hfound
  exact ⟨_, by rw [stringAt, hn, Option.map_some]⟩

/-- The byte a round of `HyStr2Int2Hex` stores for the string at its index. -/
def groupByte (s : List UInt8) : UInt8 := UInt8.ofInt (atoi ((scanWord 3 s).getD []))

section Rounds

variable {str s pre rest : List UInt8} {strLen addrLen : UInt64} {fuel : ℕ}

/-- Multiples of 3 below `2 ^ 64` do not wrap: the last one is `2 ^ 64 - 1`. -/
theorem three_mul_succ_lt {n : ℕ} (h : 3 * n < strLen.toNat) : 3 * (n + 1) < 2 ^ 64 := by
  have hlt := strLen.toNat_lt
  omega

theorem ofNat_three_mul_lt_iff {n : ℕ} (h : 3 * n < 2 ^ 64) :
    UInt64.ofNat (3 * n) < strLen ↔ 3 * n < strLen.toNat := by
  rw [UInt64.lt_iff_toNat_lt, UInt64.toNat_ofNat_of_lt' h]

/-- **One round**, with the bytes stored so far and the cells still to be written: the loop ends
with the last cell. -/
theorem str2HexLoop_round {x : UInt8} (hlt : 3 * pre.length < strLen.toNat)
    (hread : stringAt str (3 * pre.length) = some s)
    (haddr : (pre ++ x :: rest).length = addrLen.toNat) :
    str2HexLoop str strLen addrLen (fuel + 1) (UInt64.ofNat (3 * pre.length))
        (UInt64.ofNat pre.length) (pre ++ x :: rest) =
      if rest = [] then some (pre ++ [groupByte s])
      else str2HexLoop str strLen addrLen fuel (UInt64.ofNat (3 * (pre ++ [groupByte s]).length))
        (UInt64.ofNat (pre ++ [groupByte s]).length) (pre ++ [groupByte s] ++ rest) := by
  have hsmall : 3 * pre.length < 2 ^ 64 := hlt.trans strLen.toNat_lt
  have hcnt : (UInt64.ofNat pre.length).toNat = pre.length :=
    UInt64.toNat_ofNat_of_lt' (show pre.length < 2 ^ 64 by omega)
  have hstore : store (pre ++ x :: rest) (UInt64.ofNat pre.length).toNat [groupByte s] =
      some (pre ++ [groupByte s] ++ rest) := by
    rw [hcnt, ← List.singleton_append, ← List.append_assoc]
    exact store_middle rfl rfl
  -- the count reaches the size exactly when no cell is left
  have hdone : UInt64.ofNat pre.length + 1 = addrLen ↔ rest = [] := by
    rw [← UInt64.toNat_inj, UInt64.toNat_add, hcnt, ← haddr, List.length_append, List.length_cons,
      ← List.length_eq_zero_iff]
    change (pre.length + 1) % 2 ^ 64 = _ ↔ _
    rw [Nat.mod_eq_of_lt (by omega)]
    omega
  rw [str2HexLoop, if_pos ((ofNat_three_mul_lt_iff hsmall).mpr hlt),
    UInt64.toNat_ofNat_of_lt' hsmall, hread]
  dsimp only [Option.bind_eq_bind, Option.bind_some]
  rw [← groupByte, hstore, Option.bind_some]
  simp only [hdone, List.length_append, List.length_singleton, Nat.mul_add, UInt64.ofNat_add]
  split_ifs with hnil
  · rw [hnil, List.append_nil]
    rfl
  · rfl

end Rounds

/-! ## Output that fits -/

/-- Four numbers with dots between them. -/
def dotted (a b c d : ℕ) : List UInt8 :=
  printed a ++ 46 :: (printed b ++ 46 :: (printed c ++ 46 :: printed d))

/-- The octet `k` of an address, 3 being the highest. -/
def octet (ipNum : UInt32) (k : ℕ) : ℕ := ipNum.toNat / 256 ^ k % 256

/-- An address as a dotted decimal. -/
def dottedQuad (ipNum : UInt32) : List UInt8 :=
  dotted (octet ipNum 3) (octet ipNum 2) (octet ipNum 1) (octet ipNum 0)

theorem octet_lt (ipNum : UInt32) (k : ℕ) : octet ipNum k < 256 := Nat.mod_lt _ (by decide)

theorem length_dottedQuad_le (ipNum : UInt32) : (dottedQuad ipNum).length ≤ 15 := by
  have hlen : ∀ k, (printed (octet ipNum k)).length ≤ 3 := fun k =>
    (length_printed_le_iff (by decide)).mpr ((octet_lt ipNum k).trans (by decide))
  have h0 := hlen 0
  have h1 := hlen 1
  have h2 := hlen 2
  have h3 := hlen 3
  simp only [dottedQuad, dotted, List.length_append, List.length_cons]
  omega

theorem octetTexts_eq (ipNum : UInt32) :
    octetTexts ipNum = [printed (octet ipNum 3) ++ [46], printed (octet ipNum 2) ++ [46],
      printed (octet ipNum 1) ++ [46], printed (octet ipNum 0) ++ [46]] := by
  simp only [octetTexts, octet, leBytes, List.reverse_cons, List.reverse_nil, List.nil_append,
    List.cons_append, List.map_cons, List.map_nil, toNat_ofNat_uint8, Nat.div_div_eq_div_mul,
    Nat.pow_succ, Nat.pow_zero, Nat.one_mul, Nat.div_one]

theorem flatten_octetTexts (ipNum : UInt32) :
    (octetTexts ipNum).flatten = dottedQuad ipNum ++ [46] := by
  simp [octetTexts_eq, dottedQuad, dotted]

/-- **An address that fits** with its terminator is printed: the dot behind the last number is
taken back. -/
theorem hyIpInt2Str_fits (ipNum : UInt32) {ipStr : List UInt8} {ipStrLen : UInt64}
    (hlen : ipStr.length = ipStrLen.toNat) (hfit : (dottedQuad ipNum).length < ipStrLen.toNat) :
    ∃ rest, hyIpInt2Str ipNum ipStr ipStrLen = some (dottedQuad ipNum ++ 0 :: rest) := by
  let texts := [printed (octet ipNum 3) ++ [46], printed (octet ipNum 2) ++ [46],
    printed (octet ipNum 1) ++ [46]]
  have htexts : octetTexts ipNum = texts ++ [printed (octet ipNum 0) ++ [46]] := octetTexts_eq ipNum
  have hquad : dottedQuad ipNum = texts.flatten ++ printed (octet ipNum 0) := by
    simp [texts, dottedQuad, dotted]
  rw [hquad, List.length_append] at hfit
  have hzeros : (List.replicate ipStrLen.toNat (0 : UInt8)).length = ipStrLen.toNat :=
    List.length_replicate
  -- the first three numbers fit with their dots
  obtain ⟨rest₁, hfirst⟩ := @appendTo_foldlM_fits ipStrLen [] _ texts (List.cons_ne_nil _ _) hzeros
    (by rw [hzeros]; omega)
  simp only [List.nil_append] at hfirst
  have hlen₁ : (texts.flatten ++ 0 :: rest₁).length = ipStrLen.toNat :=
    (appendTo_foldlM_eq_some hzeros hfirst).2.1
  obtain ⟨rest, hlast⟩ := appendTo_overwrite_last (printed (octet ipNum 0)) 46 hlen₁ (by
    rw [List.length_append] at hlen₁
    omega)
  refine ⟨rest, ?_⟩
  have hfirst' : texts.foldlM (appendTo ipStrLen)
      (List.replicate ipStrLen.toNat 0, (0 : UInt64)) = some _ := hfirst
  rw [hyIpInt2Str_eq ipNum hlen, htexts, List.foldlM_append, hquad, hfirst', Option.bind_eq_bind,
    Option.bind_some, List.foldlM_cons]
  simp only [List.foldlM_nil, bind_pure]
  exact hlast

/-- **Bytes that fit** with a terminator are printed as groups. -/
theorem hyHex2Int2Str_fits {addr str : List UInt8} {addrLen strLen : UInt64} (hne : addr ≠ [])
    (haddr : addr.length = addrLen.toNat) (hstr : str.length = strLen.toNat)
    (hfit : (groupTexts addr).flatten.length < strLen.toNat) :
    ∃ rest, hyHex2Int2Str addr addrLen str strLen =
      some ((groupTexts addr).flatten ++ 0 :: rest) := by
  obtain ⟨rest, hall⟩ := @appendTo_foldlM_fits strLen [] str (groupTexts addr)
    (by simpa [groupTexts] using hne) hstr (hstr ▸ hfit)
  refine ⟨rest, ?_⟩
  rw [hyHex2Int2Str_eq addr str strLen haddr]
  exact congrArg (Option.map (·.1)) hall

/-- **Bits that fit** with a terminator are printed. -/
theorem hyDec2BitStr_fits (num : UInt32) {numLen strLen : UInt64} {bitStr : List UInt8}
    (hpos : 0 < numLen.toNat) (hstr : bitStr.length = strLen.toNat)
    (hfit : (bitTexts num numLen.toNat).flatten.length < strLen.toNat) :
    ∃ rest, hyDec2BitStr num numLen bitStr strLen =
      some ((bitTexts num numLen.toNat).flatten ++ 0 :: rest) := by
  have hzeros : (List.replicate strLen.toNat (0 : UInt8)).length = strLen.toNat :=
    List.length_replicate
  obtain ⟨rest, hall⟩ := @appendTo_foldlM_fits strLen [] _ (bitTexts num numLen.toNat)
    (by simpa [bitTexts] using hpos.ne') hzeros (hzeros.symm ▸ hfit)
  refine ⟨rest, ?_⟩
  rw [hyDec2BitStr_eq num numLen hstr]
  exact congrArg (Option.map (·.1)) hall

end HyUtils.Utils
