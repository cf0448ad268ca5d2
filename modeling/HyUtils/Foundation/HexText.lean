import Mathlib.Data.List.Range
import Mathlib.Tactic.IntervalCases

/-!
# Hexadecimal text

Bytes written with two digits each, and read back from the places where their digits stand.

## Main definitions

* `hexByte c`: the two digits of a byte
* `readBack place n text`: the bytes whose digits stand at `place 0`, …, `place (n - 1)`

## Main results

* `readByte_hexByte`: a byte is read back as it was written
* `readBack_concat`: a text with one more byte written behind it
-/

namespace HexText

/-- The character of a digit, in small letters. -/
def hexDigit (d : ℕ) : UInt8 := UInt8.ofNat (if d < 10 then 48 + d else 87 + d)

/-- The two digits of a byte. -/
def hexByte (c : UInt8) : List UInt8 := [hexDigit (c.toNat / 16), hexDigit (c.toNat % 16)]

/-- The digit a character stands for. -/
def hexValue (c : UInt8) : ℕ := if c.toNat < 58 then c.toNat - 48 else c.toNat - 87

/-- The byte whose digits stand first. -/
def readByte (text : List UInt8) : UInt8 :=
  UInt8.ofNat (16 * hexValue (text.getD 0 0) + hexValue (text.getD 1 0))

/-- The bytes whose digits stand at the first `n` places. -/
def readBack (place : ℕ → ℕ) (n : ℕ) (text : List UInt8) : List UInt8 :=
  (List.range n).map fun i => readByte (text.drop (place i))

theorem hexValue_hexDigit {d : ℕ} (h : d < 16) : hexValue (hexDigit d) = d := by
  interval_cases d <;> rfl

theorem readByte_hexByte (c : UInt8) (rest : List UInt8) : readByte (hexByte c ++ rest) = c := by
  have hc := c.toNat_lt
  have hhigh : hexValue (hexDigit (c.toNat / 16)) = c.toNat / 16 := hexValue_hexDigit (by omega)
  have hlow : hexValue (hexDigit (c.toNat % 16)) = c.toNat % 16 := hexValue_hexDigit (by omega)
  calc readByte (hexByte c ++ rest)
      = UInt8.ofNat (16 * hexValue (hexDigit (c.toNat / 16)) +
          hexValue (hexDigit (c.toNat % 16))) := rfl
    _ = c := by rw [hhigh, hlow, Nat.div_add_mod, UInt8.ofNat_toNat]

/-- What is written behind the digits of a byte does not change it. -/
theorem readByte_append {text rest : List UInt8} (h : 2 ≤ text.length) :
    readByte (text ++ rest) = readByte text := by
  match text, h with
  | _ :: _ :: _, _ => rfl

/-- What is written behind the digits of the bytes does not change them. -/
theorem readBack_append {place : ℕ → ℕ} {n : ℕ} {text : List UInt8} {rest : List UInt8}
    (h : ∀ i < n, place i + 2 ≤ text.length) :
    readBack place n (text ++ rest) = readBack place n text := by
  refine List.map_congr_left fun i hi => ?_
  have hi := h i (List.mem_range.mp hi)
  rw [List.drop_append_of_le_length (by omega)]
  apply readByte_append
  rw [List.length_drop]
  omega

/-- **One more byte** is read from the place behind the text. -/
theorem readBack_concat {place : ℕ → ℕ} {n : ℕ} {text : List UInt8} (c : UInt8)
    (rest : List UInt8) (hn : place n = text.length) (h : ∀ i < n, place i + 2 ≤ text.length) :
    readBack place (n + 1) (text ++ (hexByte c ++ rest)) = readBack place n text ++ [c] := by
  have hlast : readByte ((text ++ (hexByte c ++ rest)).drop (place n)) = c := by
    rw [hn, List.drop_left, readByte_hexByte]
  rw [← readBack_append h, readBack, List.range_succ, List.map_append,
    List.map_singleton, hlast, readBack]

end HexText
