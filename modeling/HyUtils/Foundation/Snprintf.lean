import HyUtils.Foundation.Region
import Mathlib.Data.UInt
import Mathlib.Tactic.Common

/-!
# Bounded formatted output

`snprintf` writes what fits of a formatted text and a terminator, and returns the length of the
whole text. A program that appends texts to a buffer adds these lengths up in a cursor, and passes
what is left of the buffer as an unsigned difference. The lengths returned are those of the whole
texts, so after a text that was cut the cursor may be behind the buffer, and the difference wraps.

## Main definitions

* `snprintf buf off n text`: the buffer afterwards, with the length returned
* `Cursor κ`: the integers a program counts with, as offsets into a buffer
* `appendTo size s text`: one text appended at a cursor
* `appendAll size s texts`: texts appended one after another, at a cursor of 32 bits
* `Terminated size buf`: a buffer of `size` bytes with a terminator in it

## Main results

* `appendTo_foldlM_isSome_iff`: appends stay within the buffer exactly when what comes before each
  text fits
* `appendTo_foldlM_fits`: appends that fit leave their texts and a terminator
* `appendTo_overwrite_last`: the same for a text whose last character is taken back
* `appendAll_isSome_iff`: the appends at a cursor of 32 bits
-/

namespace Snprintf

open Region

/-- `snprintf` to the cell `off` of a buffer, with room for `n` bytes. -/
def snprintf (buf : List UInt8) (off : ℕ) (n : UInt64) (text : List UInt8) :
    Option (List UInt8 × ℕ) :=
  if n = 0 then some (buf, text.length)
  else (store buf off (text.take (n.toNat - 1) ++ [0])).map fun buf => (buf, text.length)

variable {size : UInt64} {buf : List UInt8} {text : List UInt8}

/-- With the room it is told it has, `snprintf` keeps the size of the buffer, and a terminator in
it. -/
theorem snprintf_eq_some (text : List UInt8) {off : ℕ} {n : UInt64}
    (h : off + n.toNat ≤ buf.length) :
    ∃ buf', snprintf buf off n text = some (buf', text.length) ∧ buf'.length = buf.length ∧
      (0 ∈ buf → 0 ∈ buf') := by
  by_cases h0 : n = 0
  · -- no room at all, not for a terminator either: nothing is written
    exact ⟨buf, if_pos h0, rfl, id⟩
  · have hpos : n.toNat ≠ 0 := fun hz => h0 (UInt64.toNat_inj.mp hz)
    have hfit : off + (text.take (n.toNat - 1) ++ [0]).length ≤ buf.length := by
      rw [List.length_append, List.length_take, List.length_singleton]
      omega
    refine ⟨buf.take off ++ (text.take (n.toNat - 1) ++ [0]) ++
      buf.drop (off + (text.take (n.toNat - 1) ++ [0]).length), ?_, ?_, ?_⟩
    · rw [snprintf, if_neg h0, store_eq_some hfit, Option.map_some]
    · simp only [List.length_append, List.length_take, List.length_drop] at hfit ⊢
      omega
    · intro _
      simp

/-- Behind the buffer any room leaves it. -/
theorem snprintf_eq_none {off : ℕ} {n : UInt64} (h : buf.length < off) (hn : n ≠ 0) :
    snprintf buf off n text = none := by
  have hstore : store buf off (text.take (n.toNat - 1) ++ [0]) = none :=
    store_eq_none (Nat.lt_add_right _ h)
  rw [snprintf, if_neg hn, hstore, Option.map_none]

/-- A text cut to the room left, and its terminator, are written after what was written before. -/
theorem snprintf_after {pre rest : List UInt8} {n : UInt64} (hn : n.toNat = rest.length)
    (hpos : rest ≠ []) :
    ∃ rest', snprintf (pre ++ rest) pre.length n text =
      some (pre ++ text.take (rest.length - 1) ++ 0 :: rest', text.length) := by
  have hlen := List.length_pos_iff.mpr hpos
  have h0 : n ≠ 0 := by
    rintro rfl
    exact hlen.ne hn
  have hfit : (text.take (rest.length - 1) ++ [0]).length ≤ rest.length := by
    rw [List.length_append, List.length_take, List.length_singleton]
    omega
  refine ⟨rest.drop (text.take (rest.length - 1) ++ [0]).length, ?_⟩
  rw [snprintf, if_neg h0, hn, store_after rfl hfit, Option.map_some]
  simp only [List.append_assoc, List.singleton_append]

/-! ## Appending at a cursor -/

/-- The integers a program counts with: the offset one stands for, and how it counts on. -/
class Cursor (κ : Type*) where
  toSize : κ → UInt64
  advance : κ → ℕ → κ
  advance_zero : ∀ c, advance c 0 = c
  advance_advance : ∀ c m n, advance (advance c m) n = advance c (m + n)

instance : Cursor UInt32 where
  toSize := UInt32.toUInt64
  advance c n := c + UInt32.ofNat n
  advance_zero c := by simp
  advance_advance c m n := by rw [UInt32.ofNat_add, add_assoc]

instance : Cursor UInt64 where
  toSize := id
  advance c n := c + UInt64.ofNat n
  advance_zero c := by simp
  advance_advance c m n := by rw [UInt64.ofNat_add, add_assoc]

open Cursor

section Cursors

variable {κ : Type*} [Cursor κ] {cur : κ}

/-- `len += snprintf(buf + len, size - len, ..)`: a text appended at the cursor of a buffer of
`size` bytes. -/
def appendTo (size : UInt64) (s : List UInt8 × κ) (text : List UInt8) :
    Option (List UInt8 × κ) :=
  (snprintf s.1 (toSize s.2).toNat (size - toSize s.2) text).map fun r => (r.1, advance s.2 r.2)

theorem toNat_room {off : UInt64} (h : off.toNat ≤ size.toNat) :
    (size - off).toNat = size.toNat - off.toNat :=
  UInt64.toNat_sub_of_le _ _ (UInt64.le_iff_toNat_le.mpr h)

/-- Behind the buffer the difference wraps, and is not 0. -/
theorem room_ne_zero {off : UInt64} (h : size.toNat < off.toNat) : size - off ≠ 0 := by
  intro h0
  have heq : size = off := sub_eq_zero.mp h0
  rw [heq] at h
  exact absurd h (Nat.lt_irrefl _)

variable (text) in
/-- **An append at a cursor within the buffer** keeps the size of the buffer, and a terminator in
it. -/
theorem appendTo_eq_some (hbuf : buf.length = size.toNat)
    (h : (toSize cur).toNat ≤ size.toNat) :
    ∃ buf', appendTo size (buf, cur) text = some (buf', advance cur text.length) ∧
      buf'.length = size.toNat ∧ (0 ∈ buf → 0 ∈ buf') := by
  have hroom : (toSize cur).toNat + (size - toSize cur).toNat ≤ buf.length := by
    rw [toNat_room h]
    omega
  obtain ⟨buf', hsome, hlen, hmem⟩ := snprintf_eq_some text hroom
  exact ⟨buf', by rw [appendTo, hsome, Option.map_some], hlen.trans hbuf, hmem⟩

/-- Behind the buffer an append leaves it. -/
theorem appendTo_eq_none (hbuf : buf.length = size.toNat) (h : size.toNat < (toSize cur).toNat) :
    appendTo size (buf, cur) text = none := by
  rw [appendTo, snprintf_eq_none (hbuf.trans_lt h) (room_ne_zero h), Option.map_none]

/-- **Appends stay within the buffer** exactly when what comes before each text fits, as the
cursor counts it. -/
theorem appendTo_foldlM_isSome_iff (cur : κ) (texts : List (List UInt8))
    (hbuf : buf.length = size.toNat) :
    (texts.foldlM (appendTo size) (buf, cur)).isSome ↔
      ∀ k < texts.length,
        (toSize (advance cur (texts.take k).flatten.length)).toNat ≤ size.toNat := by
  -- Induction on the texts; the first one decides whether there is a buffer to go on with.
  induction texts generalizing buf cur with
  | nil => exact iff_of_true rfl fun k hk => absurd hk (Nat.not_lt_zero k)
  | cons text texts ih =>
    rw [List.length_cons, Nat.forall_lt_succ_left, List.foldlM_cons]
    have hzero : advance cur ((text :: texts).take 0).flatten.length = cur := advance_zero cur
    rw [hzero]
    rcases Nat.lt_or_ge size.toNat (toSize cur).toNat with hcur | hcur
    · rw [appendTo_eq_none hbuf hcur]
      exact iff_of_false Bool.false_ne_true fun h => absurd h.1 (Nat.not_le_of_lt hcur)
    · obtain ⟨buf', hsome, hbuf', -⟩ := appendTo_eq_some text hbuf hcur
      rw [hsome, Option.bind_eq_bind, Option.bind_some, ih _ hbuf', and_iff_right hcur]
      simp only [List.take_succ_cons, List.flatten_cons, List.length_append, advance_advance]

/-- Appends that stay within the buffer count all texts, and keep the size of the buffer and a
terminator in it. -/
theorem appendTo_foldlM_eq_some {texts : List (List UInt8)} {s' : List UInt8 × κ}
    (hbuf : buf.length = size.toNat) (h : texts.foldlM (appendTo size) (buf, cur) = some s') :
    s'.2 = advance cur texts.flatten.length ∧ s'.1.length = size.toNat ∧
      (0 ∈ buf → 0 ∈ s'.1) := by
  induction texts generalizing buf cur with
  | nil =>
    obtain rfl := Option.some.inj h
    exact ⟨(advance_zero cur).symm, hbuf, id⟩
  | cons text texts ih =>
    obtain ⟨s₁, hfirst, hrest⟩ := Option.bind_eq_some_iff.mp h
    rcases Nat.lt_or_ge size.toNat (toSize cur).toNat with hcur | hcur
    · rw [appendTo_eq_none hbuf hcur] at hfirst
      cases hfirst
    · obtain ⟨buf', hsome, hbuf', hmem⟩ := appendTo_eq_some text hbuf hcur
      obtain rfl := Option.some.inj (hsome.symm.trans hfirst)
      obtain ⟨hcur', hlen, hmem'⟩ := ih hbuf' hrest
      rw [advance_advance, ← List.length_append, ← List.flatten_cons] at hcur'
      exact ⟨hcur', hlen, hmem' ∘ hmem⟩

end Cursors

/-- The length of texts of one length each. -/
theorem length_flatten_take {texts : List (List UInt8)} {n k : ℕ}
    (h : ∀ text ∈ texts, text.length = n) (hk : k ≤ texts.length) :
    (texts.take k).flatten.length = n * k := by
  have hmap : (texts.take k).map List.length = List.replicate k n := by
    apply List.eq_replicate_iff.mpr
    refine ⟨by rw [List.length_map, List.length_take, min_eq_left hk], ?_⟩
    intro m hm
    obtain ⟨text, htext, rfl⟩ := List.mem_map.mp hm
    exact h text (List.mem_of_mem_take htext)
  rw [List.length_flatten, hmap, List.sum_replicate_nat, Nat.mul_comm]

/-- The appends from the start of the buffer, at a cursor of 64 bits. -/
theorem appendTo_foldlM_start_isSome_iff (texts : List (List UInt8))
    (hbuf : buf.length = size.toNat) :
    (texts.foldlM (appendTo size) (buf, (0 : UInt64))).isSome ↔
      ∀ k < texts.length, (texts.take k).flatten.length % 2 ^ 64 ≤ size.toNat := by
  rw [appendTo_foldlM_isSome_iff _ texts hbuf]
  simp only [toSize, id, advance, UInt64.zero_add, UInt64.toNat_ofNat']

/-! ## Texts that fit -/

section Fits

variable {pre rest : List UInt8}

/-- A text after what was written before, cut to the buffer. -/
theorem appendTo_after (text : List UInt8) (hsize : (pre ++ rest).length = size.toNat)
    (hrest : rest ≠ []) :
    ∃ rest', appendTo size (pre ++ rest, UInt64.ofNat pre.length) text =
      some (pre ++ text.take (rest.length - 1) ++ 0 :: rest',
        UInt64.ofNat (pre.length + text.length)) := by
  have hlt := size.toNat_lt
  rw [List.length_append] at hsize
  have hpre : (UInt64.ofNat pre.length).toNat = pre.length :=
    UInt64.toNat_ofNat_of_lt' (show pre.length < 2 ^ 64 by omega)
  have hroom : (size - UInt64.ofNat pre.length).toNat = rest.length := by
    rw [toNat_room (by omega), hpre]
    omega
  obtain ⟨rest', hsome⟩ := @snprintf_after text pre rest _ hroom hrest
  refine ⟨rest', ?_⟩
  simp only [appendTo, toSize, id, hpre, hsome, Option.map_some, advance, UInt64.ofNat_add]

/-- **Appends that fit** leave their texts one after another, and a terminator. -/
theorem appendTo_foldlM_fits (texts : List (List UInt8)) (htexts : texts ≠ [])
    (hsize : (pre ++ rest).length = size.toNat) (hfit : texts.flatten.length < rest.length) :
    ∃ rest', texts.foldlM (appendTo size) (pre ++ rest, UInt64.ofNat pre.length) =
      some (pre ++ texts.flatten ++ 0 :: rest',
        UInt64.ofNat (pre ++ texts.flatten).length) := by
  -- Induction on the texts; what was written grows by the first one.
  induction texts generalizing pre rest with
  | nil => exact absurd rfl htexts
  | cons text texts ih =>
    rw [List.flatten_cons, List.length_append] at hfit
    have hrest : rest ≠ [] := List.ne_nil_of_length_pos (by omega)
    obtain ⟨rest₁, hfirst⟩ := appendTo_after text hsize hrest
    rw [List.take_of_length_le (show text.length ≤ rest.length - 1 by omega)] at hfirst
    rw [List.foldlM_cons, hfirst, Option.bind_eq_bind, Option.bind_some, List.flatten_cons]
    cases texts with
    | nil =>
      refine ⟨rest₁, ?_⟩
      simp only [List.foldlM_nil, List.flatten_nil, List.append_nil, List.length_append]
      rfl
    | cons text' texts =>
      have hlen : (pre ++ text ++ 0 :: rest₁).length = size.toNat := by
        have hcur : (toSize (UInt64.ofNat pre.length)).toNat ≤ size.toNat := by
          have hmod : (UInt64.ofNat pre.length).toNat ≤ pre.length := by
            rw [UInt64.toNat_ofNat']
            exact Nat.mod_le _ _
          rw [List.length_append] at hsize
          exact hmod.trans (by omega)
        obtain ⟨buf', hsome, hbuf', -⟩ := appendTo_eq_some text hsize hcur
        obtain ⟨rfl, -⟩ := Prod.mk.inj (Option.some.inj (hsome.symm.trans hfirst))
        exact hbuf'
      have hfit' : (text' :: texts).flatten.length < (0 :: rest₁).length := by
        simp only [List.length_append] at hlen hsize
        omega
      obtain ⟨rest', hall⟩ := ih (List.cons_ne_nil _ _) hlen hfit'
      rw [List.length_append] at hall
      refine ⟨rest', ?_⟩
      rw [hall]
      simp only [List.append_assoc]

/-- A text whose last character is then overwritten by a terminator has to fit without it. -/
theorem appendTo_overwrite_last (text : List UInt8) (c : UInt8)
    (hsize : (pre ++ rest).length = size.toNat) (hfit : text.length < rest.length) :
    ∃ rest', (appendTo size (pre ++ rest, UInt64.ofNat pre.length) (text ++ [c])).bind
        (fun s => store s.1 (s.2 - 1).toNat [0]) = some (pre ++ text ++ 0 :: rest') := by
  have hlt := size.toNat_lt
  have hrest : rest ≠ [] := List.ne_nil_of_length_pos (Nat.zero_lt_of_lt hfit)
  obtain ⟨rest', hsome⟩ := appendTo_after (text ++ [c]) hsize hrest
  rw [List.length_append] at hsize
  have hcur : (UInt64.ofNat (pre.length + (text ++ [c]).length) - 1).toNat =
      (pre ++ text).length := by
    rw [List.length_append, List.length_singleton, ← Nat.add_assoc, UInt64.ofNat_add,
      List.length_append]
    change (UInt64.ofNat _ + 1 - 1).toNat = _
    rw [UInt64.add_sub_cancel]
    exact UInt64.toNat_ofNat_of_lt' (show _ < 2 ^ 64 by omega)
  -- the cell behind the text holds its last character, or the terminator when that was cut
  obtain ⟨x, rest₁, hbuf⟩ : ∃ x rest₁,
      (text ++ [c]).take (rest.length - 1) ++ 0 :: rest' = text ++ x :: rest₁ := by
    rcases Nat.lt_or_ge text.length (rest.length - 1) with hwhole | hcut
    · refine ⟨c, 0 :: rest', ?_⟩
      rw [List.take_of_length_le (by rw [List.length_append]; exact hwhole), List.append_assoc]
      rfl
    · refine ⟨0, rest', ?_⟩
      rw [List.take_append_of_le_length (by omega), List.take_of_length_le (by omega)]
  have hsplit : pre ++ (text ++ [c]).take (rest.length - 1) ++ 0 :: rest' =
      pre ++ text ++ [x] ++ rest₁ := by
    rw [List.append_assoc, hbuf]
    simp only [List.append_assoc, List.singleton_append]
  have hstore : store (pre ++ text ++ [x] ++ rest₁) (pre ++ text).length [0] =
      some (pre ++ text ++ [0] ++ rest₁) := store_middle rfl rfl
  rw [List.append_assoc _ [0], List.singleton_append] at hstore
  refine ⟨rest₁, ?_⟩
  rw [hsome, Option.bind_some, hcur, hsplit]
  exact hstore

end Fits

/-! ## A cursor of 32 bits -/

/-- Texts appended one after another. -/
def appendAll (size : UInt64) (s : List UInt8 × UInt32) (texts : List (List UInt8)) :
    Option (List UInt8 × UInt32) := texts.foldlM (appendTo size) s

/-- A buffer of `size` bytes with a terminator in it. -/
structure Terminated (size : UInt64) (buf : List UInt8) : Prop where
  length : buf.length = size.toNat
  mem : 0 ∈ buf

variable {cur : UInt32}

theorem appendAll_nil {s : List UInt8 × UInt32} : appendAll size s [] = some s := rfl

theorem appendAll_cons {s : List UInt8 × UInt32} {texts : List (List UInt8)} :
    appendAll size s (text :: texts) = (appendTo size s text).bind (appendAll size · texts) := rfl

/-- Appends that stay within the buffer keep a terminator in it. -/
theorem appendAll_terminated {texts : List (List UInt8)} {s' : List UInt8 × UInt32}
    (hbuf : Terminated size buf) (h : appendAll size (buf, cur) texts = some s') :
    Terminated size s'.1 := by
  rw [appendAll] at h
  obtain ⟨-, hlen, hmem⟩ := appendTo_foldlM_eq_some hbuf.length h
  exact ⟨hlen, hmem hbuf.mem⟩

/-- **Appends stay within the buffer** exactly when what comes before each text fits, as the
32 bits of the cursor count it. -/
theorem appendAll_isSome_iff (cur : UInt32) (texts : List (List UInt8))
    (hbuf : Terminated size buf) :
    (appendAll size (buf, cur) texts).isSome ↔
      ∀ k < texts.length,
        (cur + UInt32.ofNat (texts.take k).flatten.length).toNat ≤ size.toNat := by
  rw [appendAll, appendTo_foldlM_isSome_iff cur texts hbuf.length]
  rfl

end Snprintf
