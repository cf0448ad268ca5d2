import HyUtils.Foundation.Decimal

/-!
# Formatted input

What `sscanf` and `atoi` read from a string, in the C locale. Numbers are the integers that are
written, of any size; how one is stored in an `int` is left to the program.

## Main definitions

* `scanInt s`: the conversion `%d`, with what is left of the string
* `sscanf format s`: the numbers that are converted, until the input does not match the format
* `scanWord n s`: the conversion `%ns`
* `atoi s`: the number a string begins with
* `IntField v field`: the texts `%d` reads as `v`

## Main results

* `scanInt_eq_some_iff`: `%d` reads a field as long as it goes on
* `scanInt_append_cons`: and no further than a character that belongs to no number
* `sscanf_int_lit_iff`, `sscanf_int_iff`: the strings from which a format converts all numbers
-/

namespace Scanf

open Decimal

/-! ## Characters -/

/-- `isspace`. -/
def isSpace (c : UInt8) : Bool := c = 32 || (9 ≤ c && c ≤ 13)

/-- `isdigit`. -/
def isDigit (c : UInt8) : Bool := 48 ≤ c && c ≤ 57

theorem isDigit_iff {c : UInt8} : isDigit c = true ↔ 48 ≤ c ∧ c ≤ 57 := by
  rw [isDigit, Bool.and_eq_true, decide_eq_true_iff, decide_eq_true_iff]

theorem isSpace_of_isDigit {c : UInt8} (h : isDigit c = true) : isSpace c = false := by
  obtain ⟨hlow, -⟩ := isDigit_iff.mp h
  rw [isSpace, Bool.or_eq_false_iff, Bool.and_eq_false_iff, decide_eq_false_iff_not,
    decide_eq_false_iff_not, decide_eq_false_iff_not, UInt8.not_le, UInt8.not_le]
  have hlt : (32 : UInt8) < c := UInt8.lt_of_lt_of_le (by decide) hlow
  exact ⟨(UInt8.ne_of_lt hlt).symm, .inr (UInt8.lt_trans (by decide) hlt)⟩

/-- The string does not go on with a character of the kind `p`. -/
def Stops (p : UInt8 → Bool) (s : List UInt8) : Prop := ∀ c, s.head? = some c → p c = false

section Stops

variable {p : UInt8 → Bool} {xs rest : List UInt8}

theorem Stops.cons {c : UInt8} (h : p c = false) : Stops p (c :: rest) := by
  intro c' hc'
  obtain rfl := Option.some.inj hc'
  exact h

theorem stops_dropWhile (s : List UInt8) : Stops p (s.dropWhile p) := by
  intro c hc
  have hnot := List.head?_dropWhile_not p s
  rw [hc] at hnot
  exact hnot

theorem takeWhile_of_stops (h : Stops p rest) : rest.takeWhile p = [] := by
  cases rest with
  | nil => rfl
  | cons c rest => rw [List.takeWhile_cons, h c rfl]; rfl

theorem dropWhile_of_stops (h : Stops p rest) : rest.dropWhile p = rest := by
  cases rest with
  | nil => rfl
  | cons c rest => rw [List.dropWhile_cons, h c rfl]; rfl

theorem takeWhile_append_stops (hxs : ∀ c ∈ xs, p c = true) (h : Stops p rest) :
    (xs ++ rest).takeWhile p = xs := by
  rw [List.takeWhile_append_of_pos hxs, takeWhile_of_stops h, List.append_nil]

theorem dropWhile_append_stops (hxs : ∀ c ∈ xs, p c = true) (h : Stops p rest) :
    (xs ++ rest).dropWhile p = rest := by
  rw [List.dropWhile_append_of_pos hxs, dropWhile_of_stops h]

end Stops

/-! ## One number -/

/-- The optional sign of a number, and what follows it. -/
def scanSign : List UInt8 → Bool × List UInt8
  | [] => (false, [])
  | c :: s => if c = 45 then (true, s) else if c = 43 then (false, s) else (false, c :: s)

/-- A number with its sign. -/
def signed (neg : Bool) (n : ℕ) : ℤ := if neg then -n else n

/-- `%d`: white space is skipped, and as many digits are read as there are. -/
def scanInt (s : List UInt8) : Option (ℤ × List UInt8) :=
  let r := scanSign (s.dropWhile isSpace)
  let digits := r.2.takeWhile isDigit
  if digits = [] then none else some (signed r.1 (value digits), r.2.dropWhile isDigit)

/-- The texts of a sign. -/
inductive Sign : Bool → List UInt8 → Prop
  | absent : Sign false []
  | plus : Sign false [43]
  | minus : Sign true [45]

/-- The texts `%d` reads as a number: white space, a sign, and digits. -/
inductive IntField : ℤ → List UInt8 → Prop
  | intro {neg : Bool} {space sign digits : List UInt8} (hspace : ∀ c ∈ space, isSpace c = true)
      (hsign : Sign neg sign) (hne : digits ≠ []) (hdigits : ∀ c ∈ digits, isDigit c = true) :
      IntField (signed neg (value digits)) (space ++ (sign ++ digits))

theorem IntField.of_digits {digits : List UInt8} (hne : digits ≠ [])
    (hdigits : ∀ c ∈ digits, isDigit c = true) : IntField (value digits) digits :=
  @IntField.intro false [] [] digits (fun _ h => absurd h List.not_mem_nil) .absent hne hdigits

theorem IntField.of_canonical {digits : List UInt8} (h : Canonical digits) :
    IntField (value digits) digits :=
  .of_digits h.ne_nil fun c hc => isDigit_iff.mpr (h.bounds c hc)

theorem exists_sign (s : List UInt8) :
    ∃ sign, Sign (scanSign s).1 sign ∧ s = sign ++ (scanSign s).2 := by
  cases s with
  | nil => exact ⟨[], .absent, rfl⟩
  | cons c s =>
    rw [scanSign]
    split_ifs with hminus hplus
    · exact ⟨[45], .minus, by rw [hminus]; rfl⟩
    · exact ⟨[43], .plus, by rw [hplus]; rfl⟩
    · exact ⟨[], .absent, rfl⟩

/-- A sign before a digit is read as such, and is no white space. -/
theorem scanSign_append {neg : Bool} {sign s : List UInt8} {c : UInt8} (hsign : Sign neg sign)
    (hc : isDigit c = true) :
    scanSign (sign ++ c :: s) = (neg, c :: s) ∧ Stops isSpace (sign ++ c :: s) := by
  cases hsign with
  | absent =>
    -- a digit is neither of the signs
    refine ⟨?_, Stops.cons (isSpace_of_isDigit hc)⟩
    have hminus : c ≠ 45 := by
      rintro rfl
      exact absurd hc (by decide)
    have hplus : c ≠ 43 := by
      rintro rfl
      exact absurd hc (by decide)
    rw [List.nil_append, scanSign, if_neg hminus, if_neg hplus]
  | plus => exact ⟨rfl, Stops.cons rfl⟩
  | minus => exact ⟨rfl, Stops.cons rfl⟩

/-- **A field is read** when the string does not go on with a digit. -/
theorem IntField.scanInt_append {v : ℤ} {field rest : List UInt8} (h : IntField v field)
    (hrest : Stops isDigit rest) : scanInt (field ++ rest) = some (v, rest) := by
  cases h with
  | @intro neg space sign digits hspace hsign hne hdigits =>
    obtain ⟨c, digits, rfl⟩ := List.exists_cons_of_ne_nil hne
    obtain ⟨hscan, hstop⟩ := @scanSign_append neg sign (digits ++ rest) c hsign
      (hdigits c List.mem_cons_self)
    -- the white space ends at the sign, or at the first digit
    have hskip : (space ++ (sign ++ c :: digits) ++ rest).dropWhile isSpace =
        sign ++ c :: (digits ++ rest) := by
      rw [List.append_assoc, List.append_assoc, List.cons_append]
      exact dropWhile_append_stops hspace hstop
    have htake : (c :: (digits ++ rest)).takeWhile isDigit = c :: digits :=
      takeWhile_append_stops hdigits hrest
    have hdrop : (c :: (digits ++ rest)).dropWhile isDigit = rest :=
      dropWhile_append_stops hdigits hrest
    simp only [scanInt, hskip, hscan, htake, hdrop, if_neg hne]

theorem exists_field {s rest : List UInt8} {v : ℤ} (h : scanInt s = some (v, rest)) :
    ∃ field, s = field ++ rest ∧ IntField v field ∧ Stops isDigit rest := by
  obtain ⟨sign, hsign, hsplit⟩ := exists_sign (s.dropWhile isSpace)
  rw [scanInt] at h
  split_ifs at h with hnil
  obtain ⟨rfl, rfl⟩ := Prod.mk.inj (Option.some.inj h)
  -- the field is what was skipped, the sign, and the digits
  refine ⟨s.takeWhile isSpace ++ (sign ++ (scanSign (s.dropWhile isSpace)).2.takeWhile isDigit),
    ?_, .intro ?_ hsign hnil ?_, stops_dropWhile _⟩
  · rw [List.append_assoc, List.append_assoc, List.takeWhile_append_dropWhile, ← hsplit,
      List.takeWhile_append_dropWhile]
  · exact List.all_eq_true.mp List.all_takeWhile
  · exact List.all_eq_true.mp List.all_takeWhile

/-- **`%d` reads a field** as long as it goes on. -/
theorem scanInt_eq_some_iff {s rest : List UInt8} {v : ℤ} :
    scanInt s = some (v, rest) ↔
      ∃ field, s = field ++ rest ∧ IntField v field ∧ Stops isDigit rest := by
  constructor
  · exact exists_field
  · rintro ⟨field, rfl, hfield, hrest⟩
    exact hfield.scanInt_append hrest

/-- What a sign is read from is not changed behind a character that is none. -/
theorem scanSign_append_cons {s rest : List UInt8} {c : UInt8} (hminus : c ≠ 45) (hplus : c ≠ 43) :
    scanSign (s ++ c :: rest) = ((scanSign s).1, (scanSign s).2 ++ c :: rest) := by
  cases s with
  | nil =>
    change (if c = 45 then _ else if c = 43 then _ else _) = _
    rw [if_neg hminus, if_neg hplus]
    rfl
  | cons c' s =>
    rw [List.cons_append, scanSign, scanSign]
    split_ifs
    · rfl
    · rfl
    · rfl

/-- **A number ends** before a character that belongs to no number. -/
theorem scanInt_append_cons {s rest : List UInt8} {c : UInt8} (hspace : isSpace c = false)
    (hdigit : isDigit c = false) (hminus : c ≠ 45) (hplus : c ≠ 43) :
    scanInt (s ++ c :: rest) = (scanInt s).map fun r => (r.1, r.2 ++ c :: rest) := by
  have hskip : (s ++ c :: rest).dropWhile isSpace = s.dropWhile isSpace ++ c :: rest := by
    rw [List.dropWhile_append]
    split_ifs with hnil
    · rw [List.isEmpty_iff.mp hnil, dropWhile_of_stops (.cons hspace), List.nil_append]
    · rfl
  rw [scanInt, scanInt, hskip, scanSign_append_cons hminus hplus]
  generalize scanSign (s.dropWhile isSpace) = r
  have htake : (r.2 ++ c :: rest).takeWhile isDigit = r.2.takeWhile isDigit := by
    rw [List.takeWhile_append, takeWhile_of_stops (.cons hdigit), List.append_nil]
    split_ifs with hall
    · exact ((List.takeWhile_prefix isDigit).eq_of_length hall).symm
    · rfl
  have hdrop : (r.2 ++ c :: rest).dropWhile isDigit = r.2.dropWhile isDigit ++ c :: rest := by
    rw [List.dropWhile_append]
    split_ifs with hnil
    · rw [List.isEmpty_iff.mp hnil, dropWhile_of_stops (.cons hdigit), List.nil_append]
    · rfl
  simp only [htake, hdrop]
  split_ifs
  · rfl
  · rfl

/-- `atoi`: the number a string begins with, or 0. -/
def atoi (s : List UInt8) : ℤ := (scanInt s).elim 0 (·.1)

theorem atoi_of_digits {digits : List UInt8} (hne : digits ≠ [])
    (hdigits : ∀ c ∈ digits, isDigit c = true) : atoi digits = value digits := by
  have hscan := @IntField.scanInt_append _ _ [] (IntField.of_digits hne hdigits) fun c hc =>
    absurd hc (Option.some_ne_none c).symm
  rw [List.append_nil] at hscan
  rw [atoi, hscan, Option.elim_some]

/-! ## Formats -/

/-- What a format consists of: conversions to an `int`, and characters that stand for
themselves. -/
inductive Directive
  | int
  | lit (c : UInt8)

/-- `sscanf`: the numbers that are converted, until the input does not match the format. -/
def sscanf : List Directive → List UInt8 → List ℤ
  | [], _ => []
  | .int :: format, s => (scanInt s).elim [] fun r => r.1 :: sscanf format r.2
  | .lit _ :: _, [] => []
  | .lit c :: format, c' :: s => if c' = c then sscanf format s else []

/-- The conversions of a format. -/
def conversions : List Directive → ℕ
  | [] => 0
  | .int :: format => conversions format + 1
  | .lit _ :: format => conversions format

theorem length_sscanf_le (format : List Directive) (s : List UInt8) :
    (sscanf format s).length ≤ conversions format := by
  induction format generalizing s with
  | nil => exact Nat.le_refl 0
  | cons directive format ih =>
    cases directive with
    | int =>
      rw [sscanf]
      cases scanInt s with
      | none => exact Nat.zero_le _
      | some r => exact Nat.succ_le_succ (ih r.2)
    | lit c =>
      cases s with
      | nil => exact Nat.zero_le _
      | cons c' s =>
        rw [sscanf]
        split_ifs
        · exact ih s
        · exact Nat.zero_le _

section Formats

variable {format : List Directive} {s : List UInt8} {v : ℤ} {vs : List ℤ}

theorem sscanf_int_eq_cons_iff :
    sscanf (.int :: format) s = v :: vs ↔
      ∃ rest, scanInt s = some (v, rest) ∧ sscanf format rest = vs := by
  rw [sscanf]
  cases hscan : scanInt s with
  | none => simp
  | some r =>
    obtain ⟨v', rest⟩ := r
    rw [Option.elim_some, List.cons.injEq]
    constructor
    · rintro ⟨rfl, hvs⟩
      exact ⟨rest, rfl, hvs⟩
    · rintro ⟨rest', heq, hvs⟩
      obtain ⟨rfl, rfl⟩ := Prod.mk.inj (Option.some.inj heq)
      exact ⟨rfl, hvs⟩

theorem sscanf_lit_eq_iff {c : UInt8} (hvs : vs ≠ []) :
    sscanf (.lit c :: format) s = vs ↔ ∃ rest, s = c :: rest ∧ sscanf format rest = vs := by
  cases s with
  | nil =>
    refine iff_of_false (fun h => hvs h.symm) ?_
    rintro ⟨rest, h, -⟩
    exact List.cons_ne_nil _ _ h.symm
  | cons c' s =>
    rw [sscanf]
    split_ifs with hc
    · subst hc
      constructor
      · exact fun h => ⟨s, rfl, h⟩
      · rintro ⟨rest, h, hrest⟩
        obtain ⟨-, rfl⟩ := List.cons.inj h
        exact hrest
    · refine iff_of_false (fun h => hvs h.symm) ?_
      rintro ⟨rest, h, -⟩
      exact hc (List.cons.inj h).1

/-- **A number and a character behind it**, when more numbers follow. -/
theorem sscanf_int_lit_iff {c : UInt8} (hc : isDigit c = false) (hvs : vs ≠ []) :
    sscanf (.int :: .lit c :: format) s = v :: vs ↔
      ∃ field rest, s = field ++ c :: rest ∧ IntField v field ∧ sscanf format rest = vs := by
  rw [sscanf_int_eq_cons_iff]
  constructor
  · rintro ⟨rest, hscan, hlit⟩
    obtain ⟨rest', rfl, hvs'⟩ := (sscanf_lit_eq_iff hvs).mp hlit
    obtain ⟨field, rfl, hfield, -⟩ := scanInt_eq_some_iff.mp hscan
    exact ⟨field, rest', rfl, hfield, hvs'⟩
  · rintro ⟨field, rest, rfl, hfield, hvs'⟩
    exact ⟨c :: rest, hfield.scanInt_append (.cons hc),
      (sscanf_lit_eq_iff hvs).mpr ⟨rest, rfl, hvs'⟩⟩

/-- **The last number.** -/
theorem sscanf_int_iff :
    sscanf [.int] s = [v] ↔
      ∃ field rest, s = field ++ rest ∧ IntField v field ∧ Stops isDigit rest := by
  rw [sscanf_int_eq_cons_iff]
  constructor
  · rintro ⟨rest, hscan, -⟩
    obtain ⟨field, hs, hfield, hrest⟩ := scanInt_eq_some_iff.mp hscan
    exact ⟨field, rest, hs, hfield, hrest⟩
  · rintro ⟨field, rest, rfl, hfield, hrest⟩
    exact ⟨rest, hfield.scanInt_append hrest, rfl⟩

end Formats

/-! ## Words -/

/-- `%ns`: white space is skipped, and at most `n` characters are read up to the next. -/
def scanWord (n : ℕ) (s : List UInt8) : Option (List UInt8) :=
  let word := (s.dropWhile isSpace).takeWhile fun c => !isSpace c
  if word = [] then none else some (word.take n)

/-- A group of `n` characters is read, whatever stands behind it. -/
theorem scanWord_append {n : ℕ} {word rest : List UInt8} (hlen : word.length = n) (hpos : 0 < n)
    (hword : ∀ c ∈ word, isSpace c = false) : scanWord n (word ++ rest) = some word := by
  obtain ⟨c, tail, rfl⟩ := List.exists_cons_of_length_pos (hlen.symm ▸ hpos)
  have hskip : (c :: tail ++ rest).dropWhile isSpace = c :: tail ++ rest :=
    dropWhile_of_stops (.cons (hword c List.mem_cons_self))
  -- the word may go on in the rest, and is cut to `n` characters
  have htake : (c :: tail ++ rest).takeWhile (fun c => !isSpace c) =
      c :: tail ++ rest.takeWhile fun c => !isSpace c :=
    List.takeWhile_append_of_pos fun c hc => by rw [hword c hc]; rfl
  rw [scanWord, hskip, htake]
  rw [if_neg (by simp), List.take_left' hlen]

end Scanf
