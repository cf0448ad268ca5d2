import Mathlib.Data.Nat.Digits.Lemmas

/-!
# Decimal numbers in ASCII

A number written with the bytes '0' to '9', most significant digit first, and read back.

## Main definitions

* `decimal n`: the digits of `n`
* `printed n`, `zeroPadded width n`: a number as it is printed, and with zeros up to a width
* `value digits`: the number a string of digits stands for
* `Canonical digits`: a string of digits without a leading zero

## Main results

* `value_decimal`: a number is read back as it was written
* `length_decimal_le_iff`: how many digits a number has
* `Canonical.eq_printed`: a string without a leading zero is the number it stands for, printed
-/

namespace Decimal

/-- The byte of a digit. -/
def digit (d : ℕ) : UInt8 := UInt8.ofNat (48 + d)

/-- The digits of a number. -/
def decimal (n : ℕ) : List UInt8 := ((Nat.digits 10 n).reverse).map digit

/-- The number a string of digits stands for. -/
def value (digits : List UInt8) : ℕ := digits.foldl (fun n c => 10 * n + (c.toNat - 48)) 0

theorem toNat_digit {d : ℕ} (h : d < 10) : (digit d).toNat = 48 + d := by
  rw [digit, UInt8.toNat_ofNat', Nat.mod_eq_of_lt (by omega)]

theorem exists_of_mem_decimal {n : ℕ} {c : UInt8} (h : c ∈ decimal n) :
    ∃ d < 10, c = digit d := by
  obtain ⟨d, hd, rfl⟩ := List.mem_map.mp h
  exact ⟨d, Nat.digits_lt_base (by decide) (List.mem_reverse.mp hd), rfl⟩

theorem decimal_bounds {n : ℕ} {c : UInt8} (h : c ∈ decimal n) : 48 ≤ c ∧ c ≤ 57 := by
  obtain ⟨d, hd, rfl⟩ := exists_of_mem_decimal h
  rw [UInt8.le_iff_toNat_le, UInt8.le_iff_toNat_le, toNat_digit hd]
  constructor
  · exact Nat.le_add_right 48 d
  · exact Nat.add_le_add_left (Nat.le_of_lt_succ hd) 48

/-- Any other byte is no digit of a number. -/
theorem ne_of_mem_decimal {n : ℕ} {c x : UInt8} (h : c ∈ decimal n) (hx : ¬(48 ≤ x ∧ x ≤ 57)) :
    c ≠ x := by
  rintro rfl
  exact hx (decimal_bounds h)

theorem value_append_digit {digits : List UInt8} {d : ℕ} (h : d < 10) :
    value (digits ++ [digit d]) = 10 * value digits + d := by
  rw [value, List.foldl_append, List.foldl_cons, List.foldl_nil, toNat_digit h,
    Nat.add_sub_cancel_left]
  rfl

theorem value_reverse_map {ds : List ℕ} (h : ∀ d ∈ ds, d < 10) :
    value (ds.reverse.map digit) = Nat.ofDigits 10 ds := by
  induction ds with
  | nil => rfl
  | cons d ds ih =>
    obtain ⟨hd, hds⟩ := List.forall_mem_cons.mp h
    rw [List.reverse_cons, List.map_append, List.map_singleton, value_append_digit hd, ih hds,
      Nat.ofDigits_cons, Nat.add_comm]

/-- **Reading back**: a number is read as it was written. -/
theorem value_decimal (n : ℕ) : value (decimal n) = n := by
  rw [decimal, value_reverse_map fun d hd => Nat.digits_lt_base (by decide) hd,
    Nat.ofDigits_digits]

theorem length_decimal_le_iff {n k : ℕ} : (decimal n).length ≤ k ↔ n < 10 ^ k := by
  rw [decimal, List.length_map, List.length_reverse, Nat.digits_length_le_iff (by decide)]

/-! ## Printed numbers -/

/-- A number as it is printed: 0 has a digit too. -/
def printed (n : ℕ) : List UInt8 := if n = 0 then [digit 0] else decimal n

theorem printed_ne_nil (n : ℕ) : printed n ≠ [] := by
  rw [printed]
  split_ifs with h
  · exact List.cons_ne_nil _ _
  · intro hnil
    have hzero := value_decimal n
    rw [hnil] at hzero
    exact h hzero.symm

@[simp] theorem value_printed (n : ℕ) : value (printed n) = n := by
  rw [printed]
  split_ifs with h
  · exact h.symm
  · exact value_decimal n

theorem printed_bounds {n : ℕ} {c : UInt8} (h : c ∈ printed n) : 48 ≤ c ∧ c ≤ 57 := by
  rw [printed] at h
  split_ifs at h
  · obtain rfl := List.mem_singleton.mp h
    decide
  · exact decimal_bounds h

theorem length_printed_le_iff {n k : ℕ} (hk : 0 < k) : (printed n).length ≤ k ↔ n < 10 ^ k := by
  rw [printed]
  split_ifs with h
  · subst h
    exact iff_of_true hk (Nat.pow_pos (by decide))
  · exact length_decimal_le_iff

/-- A number printed with zeros before it, up to a width. -/
def zeroPadded (width n : ℕ) : List UInt8 :=
  List.replicate (width - (printed n).length) (digit 0) ++ printed n

theorem length_zeroPadded {width n : ℕ} (hwidth : 0 < width) (h : n < 10 ^ width) :
    (zeroPadded width n).length = width := by
  have hle := (length_printed_le_iff hwidth).mpr h
  rw [zeroPadded, List.length_append, List.length_replicate, Nat.sub_add_cancel hle]

theorem value_replicate_append (k : ℕ) (digits : List UInt8) :
    value (List.replicate k (digit 0) ++ digits) = value digits := by
  induction k with
  | zero => rfl
  | succ k ih => rw [List.replicate_succ, List.cons_append, ← ih]; rfl

/-- Leading zeros do not count. -/
@[simp] theorem value_zeroPadded (width n : ℕ) : value (zeroPadded width n) = n := by
  rw [zeroPadded, value_replicate_append, value_printed]

theorem zeroPadded_bounds {width n : ℕ} {c : UInt8} (h : c ∈ zeroPadded width n) :
    48 ≤ c ∧ c ≤ 57 := by
  rcases List.mem_append.mp h with h | h
  · obtain rfl := List.eq_of_mem_replicate h
    decide
  · exact printed_bounds h

/-! ## Canonical numbers -/

/-- A string of digits without a leading zero. -/
structure Canonical (digits : List UInt8) : Prop where
  ne_nil : digits ≠ []
  bounds : ∀ c ∈ digits, 48 ≤ c ∧ c ≤ 57
  head : digits.head? = some 48 → digits.length = 1

theorem digit_sub {c : UInt8} (h : 48 ≤ c ∧ c ≤ 57) :
    c.toNat - 48 < 10 ∧ digit (c.toNat - 48) = c := by
  have hlow : 48 ≤ c.toNat := UInt8.le_iff_toNat_le.mp h.1
  have hhigh : c.toNat ≤ 57 := UInt8.le_iff_toNat_le.mp h.2
  refine ⟨by omega, ?_⟩
  rw [digit, Nat.add_sub_cancel' hlow, UInt8.ofNat_toNat]

/-- **A canonical string is a printed number**: that of its value. -/
theorem Canonical.eq_printed {digits : List UInt8} (h : Canonical digits) :
    digits = printed (value digits) := by
  by_cases hhead : digits.head? = some 48
  · -- a zero and nothing behind it
    obtain ⟨c, rfl⟩ := List.length_eq_one_iff.mp (h.head hhead)
    obtain rfl := Option.some.inj hhead
    rfl
  · -- the digits, low digit first, end with one that is not 0
    let ds := (digits.map fun c => c.toNat - 48).reverse
    have hds : ∀ d ∈ ds, d < 10 := by
      intro d hd
      obtain ⟨c, hc, rfl⟩ := List.mem_map.mp (List.mem_reverse.mp hd)
      exact (digit_sub (h.bounds c hc)).1
    have hback : ds.reverse.map digit = digits := by
      rw [List.reverse_reverse, List.map_map]
      exact (List.map_congr_left fun c hc => (digit_sub (h.bounds c hc)).2).trans (List.map_id _)
    have hlast : ∀ hne : ds ≠ [], ds.getLast hne ≠ 0 := by
      intro hne hzero
      have hfirst := (digit_sub (h.bounds _ (List.head_mem h.ne_nil))).2
      rw [List.getLast_reverse, List.head_map] at hzero
      rw [hzero] at hfirst
      exact hhead (by rw [List.head?_eq_some_head h.ne_nil, ← hfirst]; rfl)
    have hvalue : value digits = Nat.ofDigits 10 ds := by rw [← value_reverse_map hds, hback]
    have hdecimal : decimal (value digits) = digits := by
      rw [decimal, hvalue, Nat.digits_ofDigits 10 (by decide) ds hds hlast, hback]
    have hne : value digits ≠ 0 := by
      intro hzero
      rw [hzero] at hdecimal
      exact h.ne_nil hdecimal.symm
    rw [printed, if_neg hne, hdecimal]

theorem canonical_printed (n : ℕ) : Canonical (printed n) := by
  refine ⟨printed_ne_nil n, fun c => printed_bounds, ?_⟩
  rw [printed]
  split_ifs with h
  · exact fun _ => rfl
  · -- the highest digit is not 0
    intro hhead
    have hne : Nat.digits 10 n ≠ [] := Nat.digits_ne_nil_iff_ne_zero.mpr h
    have hlast := Nat.getLast_digit_ne_zero 10 h
    have hlt := Nat.digits_lt_base (by decide) (List.getLast_mem hne)
    rw [decimal, List.head?_map, List.head?_reverse, List.getLast?_eq_some_getLast hne,
      Option.map_some, Option.some.injEq] at hhead
    have hnat := congrArg UInt8.toNat hhead
    rw [toNat_digit hlt] at hnat
    exact absurd (Nat.add_left_cancel (hnat : 48 + _ = 48 + 0)) hlast

end Decimal
