import HyUtils.Fifo.Lengths
import HyUtils.Foundation.HexText

/-!
# The dump of a fifo

`HyFifoDump` prints the unread bytes of a fifo in two pieces, up to the end of the buffer and from
its start. The log line in front of them is left out; `FIFO_PRINT_ALL` is not defined.

## Main definitions

* `printHexAscii`, `printContent`, `hyFifoDump`: the functions, with what they print

## Main results

* `hyFifoDump_shows`: in a fifo that calls reach, the printed bytes are the unread ones
-/

namespace HyUtils.Fifo

open HexText Region Ring

/-- What `_print_hex_ascii` prints of a byte; `char` is signed. -/
def hexAscii (c : UInt8) : List UInt8 :=
  if c = 0x0d ∨ c = 0x0a ∨ c.toInt8 < 32 ∨ c.toInt8 ≥ 127 then hexByte c ++ [91, 32, 93, 32, 32]
  else hexByte c ++ [91, c, 93, 32, 32]

/-- `_print_hex_ascii`, of the bytes at `off`. -/
def printHexAscii (buf : List UInt8) (off : ℕ) (len : UInt32) : Option (List UInt8) :=
  (List.range len.toNat).foldlM
    (fun out i => (buf.drop off)[i]?.bind fun c => some (out ++ hexAscii c)) []

/-- `_print_content`. -/
def printContent (context : FifoContext) : Option (List UInt8) := do
  let fifoLen := (context.in_ - context.out).toUInt32
  let outIndex := context.out &&& (context.size - 1)
  let lenTmp := (hyUtilsMinMacro fifoLen.toUInt64 (context.size - outIndex)).toUInt32
  let first ← printHexAscii context.buf outIndex.toNat lenTmp
  let second ← printHexAscii context.buf 0 (fifoLen - lenTmp)
  return first ++ second ++ [10]

/-- `HyFifoDump`. -/
def hyFifoDump (context : FifoContext) : Option (List UInt8) := printContent context

section Dump

variable {context : FifoContext}

/-- The bytes of a range are printed one after another. -/
theorem printHexAscii_eq {buf : List UInt8} {off : ℕ} {len : UInt32}
    (h : len.toNat ≤ (buf.drop off).length) :
    printHexAscii buf off len = some (((buf.drop off).take len.toNat).flatMap hexAscii) := by
  rw [printHexAscii, foldlM_cells (fun out c => some (out ++ hexAscii c)) h]
  generalize (buf.drop off).take len.toNat = bytes
  induction bytes using List.reverseRecOn with
  | nil => rfl
  | append_singleton bytes c ih =>
    rw [List.foldlM_append, ih, List.flatMap_append, List.flatMap_singleton]
    rfl

/-- The two pieces are the unread bytes. -/
theorem FifoContext.Wf.printContent_eq (h : context.Wf) :
    printContent context = some (context.contents.flatMap hexAscii ++ [10]) := by
  have hu := h.used_le
  have hsz := h.size_le
  have hlen : (context.in_ - context.out).toUInt32.toNat = context.used := by
    rw [UInt64.toNat_toUInt32]
    exact Nat.mod_eq_of_lt (by rw [FifoContext.used] at hu; omega)
  rw [printContent]
  generalize (context.in_ - context.out).toUInt32 = fifoLen at hlen
  rcases Nat.eq_zero_or_pos context.size.toNat with h0 | hpos
  · -- a fifo of size 0 is empty
    have hused : context.used = 0 := by omega
    obtain rfl : fifoLen = 0 := UInt32.toNat_inj.mp (hlen.trans hused)
    rw [firstLen_zero, FifoContext.contents, hused, window_zero]
    rfl
  · generalize hlenTmp : (hyUtilsMinMacro fifoLen.toUInt64
        (context.size - (context.out &&& (context.size - 1)))).toUInt32 = lenTmp
    obtain ⟨hfirst, hrest⟩ := readPieces h hpos fifoLen hlenTmp
    rw [hlen] at hfirst hrest
    rw [← h.length_buf] at hpos hu
    -- neither piece leaves the buffer
    have hfits : lenTmp.toNat ≤
        (context.buf.drop (context.out.toNat % context.buf.length)).length := by
      rw [hfirst, List.length_drop]
      exact min_le_right _ _
    have hfits' : (fifoLen - lenTmp).toNat ≤ (context.buf.drop 0).length := by
      rw [hrest, List.drop_zero]
      omega
    rw [h.toNat_index, ← h.length_buf, printHexAscii_eq hfits, printHexAscii_eq hfits', hfirst,
      hrest, List.drop_zero, FifoContext.contents, window_eq_pieces _ hpos hu, List.flatMap_append]
    rfl

/-- The bytes are read back, seven characters each. -/
theorem readBack_hexAscii (bytes : List UInt8) :
    (bytes.flatMap hexAscii).length = 7 * bytes.length ∧
      readBack (7 * ·) bytes.length (bytes.flatMap hexAscii) = bytes := by
  induction bytes using List.reverseRecOn with
  | nil => exact ⟨rfl, rfl⟩
  | append_singleton bytes c ih =>
    obtain ⟨hlen, hback⟩ := ih
    obtain ⟨rest, hc, hrest⟩ : ∃ rest, hexAscii c = hexByte c ++ rest ∧ rest.length = 5 := by
      rw [hexAscii]
      split_ifs
      · exact ⟨_, rfl, rfl⟩
      · exact ⟨_, rfl, rfl⟩
    rw [List.flatMap_append, List.flatMap_singleton, hc, List.length_append, List.length_append,
      List.length_append, List.length_singleton, hlen, hrest]
    refine ⟨rfl, ?_⟩
    rw [readBack_concat c rest hlen.symm fun i hi => by rw [hlen]; omega, hback]

/-- **The dump of a fifo is its unread bytes**, oldest first, in every fifo that calls reach: no
print leaves the buffer, and the bytes are read back from what is printed. -/
theorem hyFifoDump_shows (h : Reachable context) :
    ∃ text, hyFifoDump context = some (text ++ [10]) ∧ text.length = 7 * context.used ∧
      readBack (7 * ·) context.used text = context.contents := by
  have hlen := h.wf.length_contents
  obtain ⟨htext, hback⟩ := readBack_hexAscii context.contents
  rw [hlen] at htext hback
  exact ⟨_, h.wf.printContent_eq, htext, hback⟩

theorem hyFifoDump_shows_three : ∃ context, Reachable context ∧
    ∃ text, hyFifoDump context = some (text ++ [10]) ∧ text.length = 7 * context.used ∧
      readBack (7 * ·) context.used text = context.contents := by
  obtain ⟨context, hreach, -, -⟩ := exists_three_unread
  exact ⟨context, hreach, hyFifoDump_shows hreach⟩

end Dump

end HyUtils.Fifo
