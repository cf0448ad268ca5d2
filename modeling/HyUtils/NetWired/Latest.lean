import HyUtils.NetWired.Blink

/-!
# The latest mode of each LED

The fifo has room for eight records. A call of `HyNetWiredSetLed` that finds eight waiting is
dropped without a word to its caller, and the other calls take effect in order: once the fifo is
drained, each LED is in the mode last accepted for it.

## Main definitions

* `lastMode calls i`: the mode of the last of the calls for LED `i`
* `HasRoom`: the step is not a call that finds the fifo full

## Main results

* `drained_modes`: the modes recorded once the fifo is drained
-/

namespace HyUtils.NetWired

open Runs

/-- The mode of the last of the calls for LED `i`, and `off` when there is none. -/
def lastMode (calls : List LedMode) (i : Fin ledMax) : Int32 :=
  ((calls.filter fun call => call.led = Int32.ofNat i).getLast?.map LedMode.mode).getD ledModeOff

theorem lastMode_append_singleton (calls : List LedMode) (call : LedMode) (i : Fin ledMax) :
    lastMode (calls ++ [call]) i =
      if call.led = Int32.ofNat i then call.mode else lastMode calls i := by
  unfold lastMode
  rw [List.filter_append]
  split_ifs with hled
  · simp [hled]
  · simp [hled]

/-- The step is not a call that finds the fifo full. -/
def HasRoom (context : NetWiredContext) (op : NetOp) : Prop :=
  op ≠ .loop → context.ledFifo.contents.length < 64
  deriving Decidable

/-! ## Runs -/

/-- The module after the steps `outs`: each LED is in the mode last taken for it. -/
structure Recorded (outs : List NetOut) (context : NetWiredContext) (recs : List LedMode) :
    Prop where
  served : Served outs context recs
  modes : ∀ i, (context.ledBlinkMode i).ledMode.mode = lastMode (outs.flatMap NetOut.dequeued) i

theorem hyNetWiredCreate_recorded {contextOk bufOk : Bool} {stack : LedMode}
    {context : NetWiredContext} (hcreate : hyNetWiredCreate contextOk bufOk stack = some context) :
    Recorded [] context [] := by
  refine ⟨⟨hyNetWiredCreate_waiting hcreate, by simp, rfl⟩, fun i => ?_⟩
  obtain ⟨ledFifo, -, hc⟩ := Option.bind_eq_some_iff.mp hcreate
  obtain rfl := Option.some.inj hc
  rfl

/-- One step moves the records on and records the mode it takes. -/
theorem Recorded.step {outs : List NetOut} {context context' : NetWiredContext}
    {recs : List LedMode} {op : NetOp} {out : NetOut} (h : Recorded outs context recs)
    (hs : netStep context op = some (context', out)) :
    ∃ recs', Recorded (outs ++ [out]) context' recs' := by
  obtain ⟨context₁, out₁, recs', hs₁, hw, hwhole, horder⟩ := netStep_waiting h.served.waiting op
  obtain ⟨rfl, rfl⟩ := Prod.mk.inj (Option.some.inj (hs₁.symm.trans hs))
  refine ⟨recs', h.served.snoc hw hwhole horder, fun i => ?_⟩
  rw [List.flatMap_append, List.flatMap_singleton]
  rcases netStep_cases h.served.waiting hs with
    ⟨hsame, hnone, -⟩ | ⟨htick, hnone, -⟩ | ⟨-, -, record, -, -, hrecord, htaken, -⟩
  · rw [hsame, hnone, List.append_nil, h.modes i]
  · -- a tick keeps the modes
    rw [htick, hnone, tick_ledBlinkMode, tickLed_ledMode, List.append_nil, h.modes i]
  · rw [hrecord, htaken, lastMode_append_singleton, ← h.modes i]
    simp only [recordLed]
    split_ifs
    · rfl
    · rfl

/-- When no call finds the fifo full, every call is accepted. -/
theorem netStep_allCalls {context : NetWiredContext} {recs : List LedMode}
    (h : Waiting context recs) {ops : List NetOp} (hroom : EachStep netStep HasRoom context ops) :
    AllSteps netStep (fun _ op _ out => out.accepted = op.calls) context ops :=
  allSteps_of_eachStep (fun context => ∃ recs, Waiting context recs)
    (fun _ op ⟨recs, hw⟩ hop => by
      obtain ⟨context', out, recs', hs, hw', -⟩ := netStep_waiting hw op
      refine ⟨context', out, hs, ?_, recs', hw'⟩
      rw [netStep_accepted hw hs]
      cases op with
      | setLed led mode => exact if_pos (hop (by simp))
      | loop => exact ite_self _)
    ⟨recs, h⟩ hroom

/-- **The modes recorded**: in every run of producers and the loop, exactly the calls that find the
fifo full are dropped, and once the fifo is drained each LED is in the mode last accepted for it:
the mode last asked for, when no call found the fifo full. -/
theorem drained_modes {contextOk bufOk : Bool} {stack : LedMode} {context : NetWiredContext}
    (hcreate : hyNetWiredCreate contextOk bufOk stack = some context) (ops : List NetOp) :
    ∃ (context' : NetWiredContext) (outs : List NetOut),
      run netStep context ops = some (context', outs) ∧
      AllSteps netStep (fun context op _ out =>
        out.accepted = if context.ledFifo.contents.length < 64 then op.calls else []) context ops ∧
      (context'.ledFifo.contents = [] → ∀ i,
        (context'.ledBlinkMode i).ledMode.mode = lastMode (outs.flatMap NetOut.accepted) i) ∧
      (context'.ledFifo.contents = [] → EachStep netStep HasRoom context ops → ∀ i,
        (context'.ledBlinkMode i).ledMode.mode = lastMode (ops.flatMap NetOp.calls) i) := by
  obtain ⟨context', outs, hrun⟩ := run_netStep_completes hcreate ops
  have hinit := hyNetWiredCreate_recorded hcreate
  obtain ⟨recs, h⟩ : ∃ recs, Recorded outs context' recs :=
    run_history (fun outs context => ∃ recs, Recorded outs context recs)
      (fun hist s op t out ⟨recs, h⟩ _ hs => h.step hs) ⟨[], hinit⟩
      (fun _ _ => (trivial : True)) hrun
  -- What was accepted was taken, once nothing waits.
  have hdrained : context'.ledFifo.contents = [] → ∀ i,
      (context'.ledBlinkMode i).ledMode.mode = lastMode (outs.flatMap NetOut.accepted) i := by
    intro hempty i
    have hlen := h.served.waiting.length_contents
    rw [hempty] at hlen
    obtain rfl : recs = [] := List.eq_nil_of_length_eq_zero (by simpa using hlen)
    rw [h.modes i, h.served.order, List.append_nil]
  refine ⟨context', outs, hrun, ?_, hdrained, fun hempty hroom i => ?_⟩
  · exact netStep_allAccepted hinit.served.waiting
  · rw [hdrained hempty i,
      flatMap_eq_of_allSteps (netStep_allCalls hinit.served.waiting hroom) hrun]

theorem drained_modes_two_calls :
    let context : NetWiredContext :=
      { ledFifo := { buf := List.replicate 64 0, size := 64, useCnt := 0, in_ := 0, out := 0 }
        ledBlinkMode := fun _ => ⟨⟨0, 0⟩, 0, 0⟩, pos := .getInfo, ledMode := ⟨7, 7⟩ }
    let ops : List NetOp := [.setLed 0 1, .setLed 0 2] ++ List.replicate 6 .loop
    ∃ (context' : NetWiredContext) (outs : List NetOut),
      run netStep context ops = some (context', outs) ∧
      AllSteps netStep (fun context op _ out =>
        out.accepted = if context.ledFifo.contents.length < 64 then op.calls else []) context ops ∧
      (context'.ledFifo.contents = [] → ∀ i,
        (context'.ledBlinkMode i).ledMode.mode = lastMode (outs.flatMap NetOut.accepted) i) ∧
      (context'.ledFifo.contents = [] → EachStep netStep HasRoom context ops → ∀ i,
        (context'.ledBlinkMode i).ledMode.mode = lastMode (ops.flatMap NetOp.calls) i) :=
  drained_modes (show hyNetWiredCreate true true ⟨7, 7⟩ = some _ from rfl) _

/-- The ninth of nine calls in a row is dropped: LED 0 stays on. -/
theorem ninth_call_dropped :
    let ops : List NetOp :=
      List.replicate 8 (.setLed 0 ledModeOn) ++ [.setLed 0 ledModeOff] ++ List.replicate 24 .loop
    ∃ (context context' : NetWiredContext) (outs : List NetOut),
      hyNetWiredCreate true true ⟨7, 7⟩ = some context ∧
      run netStep context ops = some (context', outs) ∧
      context'.ledFifo.contents = [] ∧
      lastMode (ops.flatMap NetOp.calls) 0 = ledModeOff ∧
      (context'.ledBlinkMode 0).ledMode.mode = ledModeOn := by
  refine ⟨_, _, _, rfl, rfl, ?_, ?_, ?_⟩
  all_goals decide +kernel

end HyUtils.NetWired
