import HyUtils.Utils.Convert
import Mathlib.Data.Nat.Bitwise

/-!
# Addresses

`HyIpInt2Str` and `HyIpStr2Int` are inverse to each other on dotted decimals. On other strings
`HyIpStr2Int` does not look at how many numbers `sscanf` has converted, nor at how large they are.

## Main definitions

* `quadText`: four texts with dots between them
* `OnlyParsedOctets`: what an address may be computed from
* `BeginsWithQuad`: the strings that begin with four numbers from 0 to 255 and dots between them

## Main results

* `ip_round_trip`: addresses and dotted decimals, both ways
* `ipStr2Int_iff`: the strings whose address is computed from what was read only
-/

namespace HyUtils.Utils

open Region Str Decimal Scanf Snprintf

/-! ## The sum of the octets -/

/-- The four terms of the loop. -/
theorem ipSum_eq (num : Fin ipIntDotLen → Int32) :
    ipSum num = (0 : UInt32) + (num 0 &&& 0xff).toUInt32 <<< (24 : UInt32) +
      (num 1 &&& 0xff).toUInt32 <<< (16 : UInt32) + (num 2 &&& 0xff).toUInt32 <<< (8 : UInt32) +
        (num 3 &&& 0xff).toUInt32 <<< (0 : UInt32) := rfl

/-- An octet passes the mask. -/
theorem toUInt32_and_mask {x : Int32} {a : ℕ} (h : x.toInt = a) (ha : a < 256) :
    (x &&& 0xff).toUInt32 = UInt32.ofNat a := by
  have hx : x = Int32.ofNat a := by
    rw [← Int32.ofInt_toInt x, h]
    rfl
  have hlt : a < 2 ^ 32 := ha.trans (by decide)
  have hword : x.toUInt32.toNat = a := by
    rw [hx, Int32.toUInt32_ofNat', UInt32.toNat_ofNat_of_lt' hlt]
  change x.toUInt32 &&& 0xff = _
  apply UInt32.toNat_inj.mp
  rw [UInt32.toNat_and, hword, UInt32.toNat_ofNat_of_lt' hlt]
  -- the mask keeps the low eight bits
  change a &&& 2 ^ 8 - 1 = a
  rw [Nat.and_two_pow_sub_one_eq_mod, Nat.mod_eq_of_lt ha]

theorem toNat_ofNat_shiftLeft {a : ℕ} (ha : a < 256) {s : UInt32} (hs : s.toNat ≤ 24) :
    (UInt32.ofNat a <<< s).toNat = a * 2 ^ s.toNat := by
  have hfit : a * 2 ^ s.toNat < 2 ^ 32 := calc
    a * 2 ^ s.toNat ≤ (2 ^ 8 - 1) * 2 ^ 24 :=
      Nat.mul_le_mul (Nat.le_pred_of_lt ha) (Nat.pow_le_pow_right (by decide) hs)
    _ < 2 ^ 32 := by decide
  rw [UInt32.toNat_shiftLeft, UInt32.toNat_ofNat_of_lt' (ha.trans (by decide) : a < 2 ^ 32),
    Nat.mod_eq_of_lt (hs.trans_lt (by decide)), Nat.shiftLeft_eq, Nat.mod_eq_of_lt hfit]

/-- The number of four octets. -/
def addressOf (a b c d : ℕ) : ℕ := a * 256 ^ 3 + b * 256 ^ 2 + c * 256 + d

/-- **The sum of four octets** is the number they are the digits of. -/
theorem toNat_ipSum {num : Fin ipIntDotLen → Int32} {a b c d : ℕ} (h0 : (num 0).toInt = a)
    (h1 : (num 1).toInt = b) (h2 : (num 2).toInt = c) (h3 : (num 3).toInt = d) (ha : a < 256)
    (hb : b < 256) (hc : c < 256) (hd : d < 256) : (ipSum num).toNat = addressOf a b c d := by
  rw [ipSum_eq, toUInt32_and_mask h0 ha, toUInt32_and_mask h1 hb, toUInt32_and_mask h2 hc,
    toUInt32_and_mask h3 hd]
  simp only [UInt32.toNat_add]
  rw [toNat_ofNat_shiftLeft ha (by decide), toNat_ofNat_shiftLeft hb (by decide),
    toNat_ofNat_shiftLeft hc (by decide), toNat_ofNat_shiftLeft hd (by decide)]
  change ((((0 + a * 2 ^ 24) % 2 ^ 32 + b * 2 ^ 16) % 2 ^ 32 + c * 2 ^ 8) % 2 ^ 32 + d * 2 ^ 0) %
    2 ^ 32 = _
  -- the octets do not overlap, so that no sum wraps
  rw [addressOf]
  omega

theorem addressOf_octet (ipNum : UInt32) :
    addressOf (octet ipNum 3) (octet ipNum 2) (octet ipNum 1) (octet ipNum 0) = ipNum.toNat := by
  have hlt := ipNum.toNat_lt
  simp only [addressOf, octet]
  omega

/-- The octets of a number are its digits. -/
theorem octet_of_addressOf {ipNum : UInt32} {a b c d : ℕ} (h : ipNum.toNat = addressOf a b c d)
    (ha : a < 256) (hb : b < 256) (hc : c < 256) (hd : d < 256) :
    octet ipNum 3 = a ∧ octet ipNum 2 = b ∧ octet ipNum 1 = c ∧ octet ipNum 0 = d := by
  simp only [octet, h, addressOf]
  omega

/-! ## Dotted decimals -/

/-- Four texts with dots between them. -/
def quadText (fa fb fc fd : List UInt8) : List UInt8 :=
  fa ++ 46 :: (fb ++ 46 :: (fc ++ 46 :: fd))

section Quads

variable {fa fb fc fd : List UInt8}

theorem zero_notMem_of_canonical (h : Canonical fa) : (0 : UInt8) ∉ fa := fun h0 =>
  absurd (h.bounds 0 h0).1 (by decide)

theorem zero_notMem_quadText (ha : Canonical fa) (hb : Canonical fb) (hc : Canonical fc)
    (hd : Canonical fd) : (0 : UInt8) ∉ quadText fa fb fc fd := by
  simp [quadText, zero_notMem_of_canonical ha, zero_notMem_of_canonical hb,
    zero_notMem_of_canonical hc, zero_notMem_of_canonical hd]

/-- The four numbers are converted exactly from the strings that begin with four fields and dots
between them. -/
theorem sscanf_ipFormat_iff {s : List UInt8} {a b c d : ℤ} :
    sscanf ipFormat s = [a, b, c, d] ↔
      ∃ fa fb fc fd rest, s = fa ++ 46 :: (fb ++ 46 :: (fc ++ 46 :: (fd ++ rest))) ∧
        IntField a fa ∧ IntField b fb ∧ IntField c fc ∧ IntField d fd ∧ Stops isDigit rest := by
  have hdot : isDigit 46 = false := rfl
  rw [ipFormat, sscanf_int_lit_iff hdot (List.cons_ne_nil _ _)]
  constructor
  · -- the fields are split off one after another
    rintro ⟨fa, s₁, rfl, ha, h₁⟩
    obtain ⟨fb, s₂, rfl, hb, h₂⟩ := (sscanf_int_lit_iff hdot (List.cons_ne_nil _ _)).mp h₁
    obtain ⟨fc, s₃, rfl, hc, h₃⟩ := (sscanf_int_lit_iff hdot (List.cons_ne_nil _ _)).mp h₂
    obtain ⟨fd, rest, rfl, hd, hrest⟩ := sscanf_int_iff.mp h₃
    exact ⟨fa, fb, fc, fd, rest, rfl, ha, hb, hc, hd, hrest⟩
  · rintro ⟨fa, fb, fc, fd, rest, rfl, ha, hb, hc, hd, hrest⟩
    refine ⟨fa, _, rfl, ha, (sscanf_int_lit_iff hdot (List.cons_ne_nil _ _)).mpr ?_⟩
    refine ⟨fb, _, rfl, hb, (sscanf_int_lit_iff hdot (List.cons_ne_nil _ _)).mpr ?_⟩
    exact ⟨fc, _, rfl, hc, sscanf_int_iff.mpr ⟨fd, rest, rfl, hd, hrest⟩⟩

theorem sscanf_quadText (ha : Canonical fa) (hb : Canonical fb) (hc : Canonical fc)
    (hd : Canonical fd) : sscanf ipFormat (quadText fa fb fc fd) =
      [(value fa : ℤ), (value fb : ℤ), (value fc : ℤ), (value fd : ℤ)] := by
  apply sscanf_ipFormat_iff.mpr
  refine ⟨fa, fb, fc, fd, [], by rw [List.append_nil]; rfl, .of_canonical ha, .of_canonical hb,
    .of_canonical hc, .of_canonical hd, ?_⟩
  intro c hc
  exact absurd hc (Option.some_ne_none c).symm

end Quads

/-- `HyIpStr2Int` of a string, whatever stands behind it. -/
theorem hyIpStr2Int_eq (toInt : ℤ → Int32) (num : Fin ipIntDotLen → Int32) {s : List UInt8}
    (post : List UInt8) (hs : (0 : UInt8) ∉ s) :
    hyIpStr2Int toInt num (s ++ 0 :: post) =
      some (ipSum (stored toInt num (sscanf ipFormat s))) := by
  have hstring : stringAt (s ++ 0 :: post) 0 = some s := @stringAt_append [] s post hs
  rw [hyIpStr2Int, hstring]
  rfl

/-- A sequence of octets, as it is stored. -/
theorem toNat_ipSum_stored {toInt : ℤ → Int32}
    (htoInt : ∀ v : ℤ, -2 ^ 31 ≤ v → v < 2 ^ 31 → (toInt v).toInt = v)
    (num : Fin ipIntDotLen → Int32) {a b c d : ℕ} (ha : a < 256) (hb : b < 256) (hc : c < 256)
    (hd : d < 256) : (ipSum (stored toInt num [(a : ℤ), (b : ℤ), (c : ℤ), (d : ℤ)])).toNat =
      addressOf a b c d := by
  have hoctet : ∀ n : ℕ, n < 256 → (toInt n).toInt = n := by
    intro n hn
    apply htoInt
    · exact (by decide : (-2 ^ 31 : ℤ) ≤ 0).trans (Int.natCast_nonneg n)
    · exact_mod_cast hn.trans (by decide)
  exact toNat_ipSum (hoctet a ha) (hoctet b hb) (hoctet c hc) (hoctet d hd) ha hb hc hd

/-- **Addresses and dotted decimals**: with a buffer of at least `IP_STR_DOT_LEN` bytes an address
is read back as it was printed, and a dotted decimal is printed as it was read. -/
theorem ip_round_trip {toInt : ℤ → Int32}
    (htoInt : ∀ v : ℤ, -2 ^ 31 ≤ v → v < 2 ^ 31 → (toInt v).toInt = v) {ipStr : List UInt8}
    {ipStrLen : UInt64} (hlen : ipStr.length = ipStrLen.toNat)
    (hroom : ipStrDotLen ≤ ipStrLen.toNat) :
    (∀ ipNum, ∃ text, hyIpInt2Str ipNum ipStr ipStrLen = some text ∧
        ∀ num, hyIpStr2Int toInt num text = some ipNum) ∧
      ∀ fa fb fc fd post, Canonical fa → Canonical fb → Canonical fc → Canonical fd →
        value fa ≤ 255 → value fb ≤ 255 → value fc ≤ 255 → value fd ≤ 255 →
          ∃ ipNum rest, (∀ num,
              hyIpStr2Int toInt num (quadText fa fb fc fd ++ 0 :: post) = some ipNum) ∧
            hyIpInt2Str ipNum ipStr ipStrLen = some (quadText fa fb fc fd ++ 0 :: rest) := by
  have hprint : ∀ ipNum, ∃ rest, hyIpInt2Str ipNum ipStr ipStrLen =
      some (dottedQuad ipNum ++ 0 :: rest) := fun ipNum =>
    hyIpInt2Str_fits ipNum hlen ((Nat.lt_succ_of_le (length_dottedQuad_le ipNum)).trans_le hroom)
  have hread : ∀ {fa fb fc fd : List UInt8} (post : List UInt8) (num), Canonical fa →
      Canonical fb → Canonical fc → Canonical fd → value fa < 256 → value fb < 256 →
      value fc < 256 → value fd < 256 → ∃ ipNum : UInt32,
        hyIpStr2Int toInt num (quadText fa fb fc fd ++ 0 :: post) = some ipNum ∧
          ipNum.toNat = addressOf (value fa) (value fb) (value fc) (value fd) := by
    intro fa fb fc fd post num ha hb hc hd ha' hb' hc' hd'
    refine ⟨_, hyIpStr2Int_eq toInt num post (zero_notMem_quadText ha hb hc hd), ?_⟩
    rw [sscanf_quadText ha hb hc hd]
    exact toNat_ipSum_stored htoInt num ha' hb' hc' hd'
  constructor
  · intro ipNum
    obtain ⟨rest, htext⟩ := hprint ipNum
    refine ⟨_, htext, fun num => ?_⟩
    have hvalue : ∀ k, value (printed (octet ipNum k)) < 256 := fun k =>
      (value_printed _).trans_lt (octet_lt ipNum k)
    obtain ⟨ipNum', hsome, hnat⟩ := hread rest num (canonical_printed (octet ipNum 3))
      (canonical_printed (octet ipNum 2)) (canonical_printed (octet ipNum 1))
      (canonical_printed (octet ipNum 0)) (hvalue 3) (hvalue 2) (hvalue 1) (hvalue 0)
    simp only [value_printed, addressOf_octet] at hnat
    exact hsome.trans (congrArg some (UInt32.toNat_inj.mp hnat))
  · intro fa fb fc fd post ha hb hc hd ha' hb' hc' hd'
    rw [← Nat.lt_succ_iff] at ha' hb' hc' hd'
    obtain ⟨ipNum, -, hnat⟩ := hread post (fun _ => 0) ha hb hc hd ha' hb' hc' hd'
    obtain ⟨rest, htext⟩ := hprint ipNum
    refine ⟨ipNum, rest, fun num => ?_, ?_⟩
    · -- the address does not depend on what the array held
      obtain ⟨ipNum', hsome, hnat'⟩ := hread post num ha hb hc hd ha' hb' hc' hd'
      exact hsome.trans (congrArg some (UInt32.toNat_inj.mp (hnat'.trans hnat.symm)))
    · obtain ⟨h3, h2, h1, h0⟩ := octet_of_addressOf hnat ha' hb' hc' hd'
      have hquad : dottedQuad ipNum = quadText fa fb fc fd := by
        rw [dottedQuad, dotted, h3, h2, h1, h0, ← ha.eq_printed, ← hb.eq_printed,
          ← hc.eq_printed, ← hd.eq_printed, quadText]
      rw [htext, hquad]

/-- The longest addresses fill the buffer: its last byte is that of the terminator. -/
theorem ip_round_trip_sixteen :
    (∀ ipNum, ∃ text, hyIpInt2Str ipNum (List.replicate 16 7) 16 = some text ∧
        ∀ num, hyIpStr2Int Int32.ofInt num text = some ipNum) ∧
      ∀ fa fb fc fd post, Canonical fa → Canonical fb → Canonical fc → Canonical fd →
        value fa ≤ 255 → value fb ≤ 255 → value fc ≤ 255 → value fd ≤ 255 →
          ∃ ipNum rest, (∀ num, hyIpStr2Int Int32.ofInt num
              (quadText fa fb fc fd ++ 0 :: post) = some ipNum) ∧
            hyIpInt2Str ipNum (List.replicate 16 7) 16 =
              some (quadText fa fb fc fd ++ 0 :: rest) :=
  ip_round_trip (fun _ hlow hhigh => Int32.toInt_ofInt_of_le hlow hhigh) List.length_replicate
    (by decide)

/-! ## Other strings -/

/-- An address computed from numbers from 0 to 255 that were read, and from nothing the array held
before. -/
def OnlyParsedOctets (toInt : ℤ → Int32) (s post : List UInt8) : Prop :=
  (∀ num num', hyIpStr2Int toInt num (s ++ 0 :: post) =
      hyIpStr2Int toInt num' (s ++ 0 :: post)) ∧
    ∀ v ∈ sscanf ipFormat s, 0 ≤ v ∧ v ≤ 255

/-- A string that begins with four numbers from 0 to 255, with dots between them. -/
def BeginsWithQuad (s : List UInt8) : Prop :=
  ∃ (a b c d : ℤ) (fa fb fc fd rest : List UInt8),
    s = fa ++ 46 :: (fb ++ 46 :: (fc ++ 46 :: (fd ++ rest))) ∧
      (IntField a fa ∧ IntField b fb ∧ IntField c fc ∧ IntField d fd ∧ Stops isDigit rest) ∧
        ∀ v ∈ [a, b, c, d], 0 ≤ v ∧ v ≤ 255

/-- With fewer than four numbers the last entry keeps what it held, and counts in the sum. -/
theorem exists_ipSum_ne (toInt : ℤ → Int32) {parsed : List ℤ} (h : parsed.length < 4) :
    ∃ num num', ipSum (stored toInt num parsed) ≠ ipSum (stored toInt num' parsed) := by
  refine ⟨fun _ => 0, fun i => if i = 3 then 1 else 0, ?_⟩
  intro heq
  have hnone : parsed[3]? = none := List.getElem?_eq_none (Nat.le_of_lt_succ h)
  have hlast : ∀ num, stored toInt num parsed 3 = num 3 := by
    intro num
    rw [stored, show ((3 : Fin ipIntDotLen) : ℕ) = 3 from rfl, hnone, Option.elim_none]
  rw [ipSum_eq, ipSum_eq, hlast, hlast] at heq
  have hterm := add_left_cancel heq
  exact absurd hterm (by decide)

/-- **An address is computed from the octets read only** exactly when the string begins with four
numbers from 0 to 255 and dots between them. -/
theorem ipStr2Int_iff (toInt : ℤ → Int32) {s : List UInt8} (post : List UInt8)
    (hs : (0 : UInt8) ∉ s) : OnlyParsedOctets toInt s post ↔ BeginsWithQuad s := by
  have hle : (sscanf ipFormat s).length ≤ 4 := length_sscanf_le ipFormat s
  rw [OnlyParsedOctets]
  simp only [hyIpStr2Int_eq toInt _ post hs, Option.some.injEq]
  constructor
  · rintro ⟨hsame, hrange⟩
    have hfour : (sscanf ipFormat s).length = 4 := by
      by_contra hne
      obtain ⟨num, num', hdiff⟩ := exists_ipSum_ne toInt (Nat.lt_of_le_of_ne hle hne)
      exact hdiff (hsame num num')
    obtain ⟨a, b, c, d, hparsed⟩ : ∃ a b c d, sscanf ipFormat s = [a, b, c, d] :=
      List.length_eq_four.mp hfour
    obtain ⟨fa, fb, fc, fd, rest, hsplit, hfields⟩ := sscanf_ipFormat_iff.mp hparsed
    exact ⟨a, b, c, d, fa, fb, fc, fd, rest, hsplit, hfields, hparsed ▸ hrange⟩
  · rintro ⟨a, b, c, d, fa, fb, fc, fd, rest, hsplit, hfields, hrange⟩
    have hparsed := sscanf_ipFormat_iff.mpr ⟨fa, fb, fc, fd, rest, hsplit, hfields⟩
    refine ⟨fun num num' => ?_, hparsed ▸ hrange⟩
    -- every entry of the array is stored
    rw [hparsed, ipSum_eq, ipSum_eq]
    rfl

/-- With three numbers the address ends with what the array held, and 256 is taken for 0. -/
theorem ipStr2Int_garbage :
    (hyIpStr2Int Int32.ofInt (fun _ => 0) [49, 46, 50, 46, 51, 0] = some 0x01020300 ∧
      hyIpStr2Int Int32.ofInt (fun _ => 7) [49, 46, 50, 46, 51, 0] = some 0x01020307 ∧
      ¬ OnlyParsedOctets Int32.ofInt [49, 46, 50, 46, 51] []) ∧
    hyIpStr2Int Int32.ofInt (fun _ => 7) [50, 53, 54, 46, 49, 46, 49, 46, 49, 0] =
      some 0x00010101 ∧
    ¬ OnlyParsedOctets Int32.ofInt [50, 53, 54, 46, 49, 46, 49, 46, 49] [] := by
  have hzero : hyIpStr2Int Int32.ofInt (fun _ => 0) [49, 46, 50, 46, 51, 0] = some 0x01020300 := by
    decide +kernel
  have hseven : hyIpStr2Int Int32.ofInt (fun _ => 7) [49, 46, 50, 46, 51, 0] =
      some 0x01020307 := by
    decide +kernel
  have hlarge : (256 : ℤ) ∈ sscanf ipFormat [50, 53, 54, 46, 49, 46, 49, 46, 49] := by
    decide +kernel
  refine ⟨⟨hzero, hseven, ?_⟩, by decide +kernel, ?_⟩
  · intro h
    have hsame := (hzero.symm.trans (h.1 _ _)).trans hseven
    exact absurd (Option.some.inj hsame) (by decide)
  · intro h
    exact absurd (h.2 256 hlarge).2 (by decide)

theorem ipStr2Int_iff_loopback :
    OnlyParsedOctets Int32.ofInt [49, 50, 55, 46, 48, 46, 48, 46, 49] [] ↔
      BeginsWithQuad [49, 50, 55, 46, 48, 46, 48, 46, 49] :=
  ipStr2Int_iff Int32.ofInt [] (by decide)

end HyUtils.Utils
