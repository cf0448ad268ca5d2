import HyUtils.NetWired.Records

/-!
# Blinking LEDs

A tick counts each LED up and toggles it when its counter meets the threshold of its blink mode. The
test is for equality, the counter runs in every mode, and the threshold belongs to the LED: so an
LED keeps blinking exactly when the blink mode recorded for it is its own and was recorded while its
counter was still below the threshold.

## Main definitions

* `tickLed`: a tick, seen by one LED
* `InTime`: an LED in a blink mode is in its own, with its counter below the threshold
* `TakenInTime`: the record the loop takes in a step leaves its LED so

## Main results

* `inTime_iff_forall_tickLed`: what `InTime` means for the ticks to come
* `blink_counters_below`: in a run whose records are all taken in time, after each tick the counter
  of every blinking LED is below its threshold
-/

namespace HyUtils.NetWired

open Runs Words

/-- The mode makes an LED blink. -/
def Blinks (mode : Int32) : Prop := mode = ledModeSlowBlink ∨ mode = ledModeFastBlink
  deriving Decidable

/-- A tick, seen by LED `i`. -/
def tickLed (i : Fin ledMax) (blink : LedBlinkMode) : LedBlinkMode :=
  if blink.ledMode.mode = (judgeCondition i).1 ∧ blink.cnt + 1 = (judgeCondition i).2 then
    { blink with cnt := 0, flag := if blink.flag = 0 then 1 else 0 }
  else { blink with cnt := blink.cnt + 1 }

theorem blinkLed_ledBlinkMode (context : NetWiredContext) (i : Fin ledMax) :
    (blinkLed context i).1.ledBlinkMode =
      Function.update context.ledBlinkMode i (tickLed i (context.ledBlinkMode i)) := by
  unfold blinkLed tickLed
  dsimp only
  split_ifs <;> rfl

/-- Both LEDs take part in a tick. -/
theorem tick_ledBlinkMode (context : NetWiredContext) :
    (blinkLed (blinkLed context 0).1 1).1.ledBlinkMode =
      fun i => tickLed i (context.ledBlinkMode i) := by
  ext i : 1
  rw [blinkLed_ledBlinkMode, blinkLed_ledBlinkMode]
  match i with
  | 0 => simp
  | 1 => simp

/-! ## One LED -/

/-- An LED in a blink mode is in its own, and its counter is below the threshold. -/
def InTime (i : Fin ledMax) (blink : LedBlinkMode) : Prop :=
  Blinks blink.ledMode.mode →
    blink.ledMode.mode = (judgeCondition i).1 ∧ blink.cnt < (judgeCondition i).2

theorem threshold_pos : ∀ i : Fin ledMax, 0 < (judgeCondition i).2 := by decide

@[simp] theorem tickLed_ledMode (i : Fin ledMax) (blink : LedBlinkMode) :
    (tickLed i blink).ledMode = blink.ledMode := by
  unfold tickLed
  split_ifs <;> rfl

theorem InTime.tickLed {i : Fin ledMax} {blink : LedBlinkMode} (h : InTime i blink) :
    InTime i (tickLed i blink) := by
  intro hblinks
  rw [tickLed_ledMode] at hblinks ⊢
  obtain ⟨hmode, hcnt⟩ := h hblinks
  refine ⟨hmode, ?_⟩
  rw [NetWired.tickLed]
  by_cases hmet : blink.cnt + 1 = (judgeCondition i).2
  · rw [if_pos ⟨hmode, hmet⟩]
    exact threshold_pos i
  · rw [if_neg fun h => hmet h.2]
    exact add_one_lt hcnt hmet

/-- In a blink mode that is not its own, an LED is never toggled. -/
theorem iterate_tickLed_cnt {i : Fin ledMax} {blink : LedBlinkMode}
    (hmode : blink.ledMode.mode ≠ (judgeCondition i).1) :
    ∀ n : ℕ, blink.cnt.toInt + n < 2 ^ 31 →
      ((NetWired.tickLed i)^[n] blink).cnt.toInt = blink.cnt.toInt + n ∧
        ((NetWired.tickLed i)^[n] blink).ledMode = blink.ledMode := by
  intro n
  induction n with
  | zero => exact fun _ => ⟨by simp, rfl⟩
  | succ n ih =>
    intro hn
    obtain ⟨hcnt, hkeep⟩ := ih (by omega)
    rw [Function.iterate_succ_apply']
    generalize (NetWired.tickLed i)^[n] blink = blink' at hcnt hkeep ⊢
    have hskip : NetWired.tickLed i blink' = { blink' with cnt := blink'.cnt + 1 } :=
      if_neg fun h => hmode (hkeep ▸ h.1)
    rw [hskip]
    refine ⟨?_, hkeep⟩
    rw [toInt_add_one (by omega), hcnt]
    omega

/-- **What `InTime` means**: as long as no record comes for a blinking LED, its counter stays below
the threshold. -/
theorem inTime_iff_forall_tickLed {i : Fin ledMax} {blink : LedBlinkMode}
    (hblinks : Blinks blink.ledMode.mode) :
    InTime i blink ↔ ∀ n : ℕ, ((NetWired.tickLed i)^[n] blink).cnt < (judgeCondition i).2 := by
  constructor
  · intro h n
    have hn : InTime i ((NetWired.tickLed i)^[n] blink) ∧
        ((NetWired.tickLed i)^[n] blink).ledMode = blink.ledMode := by
      induction n with
      | zero => exact ⟨h, rfl⟩
      | succ n ih =>
        rw [Function.iterate_succ_apply']
        exact ⟨ih.1.tickLed, (tickLed_ledMode i _).trans ih.2⟩
    exact (hn.1 (hn.2 ▸ hblinks)).2
  · intro h _
    refine ⟨?_, h 0⟩
    by_contra hmode
    -- never toggled, the counter reaches the threshold
    have hlt := Int32.lt_iff_toInt_lt.mp (h 0)
    rw [Function.iterate_zero_apply] at hlt
    have hmax := (judgeCondition i).2.toInt_lt
    obtain ⟨n, hn⟩ := Int.eq_ofNat_of_zero_le (Int.sub_nonneg_of_le hlt.le)
    have hcnt := (iterate_tickLed_cnt hmode n (by omega)).1
    have hbelow := Int32.lt_iff_toInt_lt.mp (h n)
    omega

/-! ## Runs -/

/-- The record at the front of the fifo. -/
def frontRecord (context : NetWiredContext) : LedMode := decode (context.ledFifo.contents.take 8)

/-- The record the loop takes in a step, if it makes its LED blink, is of that LED's own blink mode
and finds its counter below the threshold. -/
def TakenInTime (context : NetWiredContext) (op : NetOp) : Prop :=
  op = .loop → context.pos = .get → ∀ i : Fin ledMax, (frontRecord context).led = Int32.ofNat i →
    Blinks (frontRecord context).mode → (frontRecord context).mode = (judgeCondition i).1 ∧
      (context.ledBlinkMode i).cnt < (judgeCondition i).2
  deriving Decidable

theorem Waiting.frontRecord {context : NetWiredContext} {record : LedMode} {recs : List LedMode}
    (h : Waiting context (record :: recs)) : frontRecord context = record := by
  rw [NetWired.frontRecord, h.contents, List.map_cons, List.flatten_cons,
    List.take_left' (length_encode record), decode_encode]

/-- Every LED is in time. -/
def AllInTime (context : NetWiredContext) : Prop :=
  (∃ recs, Waiting context recs) ∧ ∀ i, InTime i (context.ledBlinkMode i)

theorem hyNetWiredCreate_allInTime {contextOk bufOk : Bool} {stack : LedMode}
    {context : NetWiredContext} (hcreate : hyNetWiredCreate contextOk bufOk stack = some context) :
    AllInTime context := by
  refine ⟨⟨[], hyNetWiredCreate_waiting hcreate⟩, fun i hblinks => ?_⟩
  obtain ⟨ledFifo, -, hc⟩ := Option.bind_eq_some_iff.mp hcreate
  obtain rfl := Option.some.inj hc
  -- both LEDs start in mode `off`
  exact absurd hblinks (show ¬Blinks 0 from fun h => h.elim (by decide) (by decide))

/-- A record taken in time leaves every LED in time. -/
theorem recordLed_inTime {context : NetWiredContext}
    (h : ∀ i, InTime i (context.ledBlinkMode i)) (hpos : context.pos = .get)
    (htaken : TakenInTime context .loop) (i : Fin ledMax) :
    InTime i ((recordLed context (frontRecord context)).1.ledBlinkMode i) := by
  simp only [recordLed]
  split_ifs with hled
  · exact htaken rfl hpos i hled
  · exact h i

/-- A step that takes a record in time, or none, keeps every LED in time. -/
theorem netStep_allInTime {context : NetWiredContext} {op : NetOp} (h : AllInTime context)
    (htaken : TakenInTime context op) :
    ∃ context' out, netStep context op = some (context', out) ∧ AllInTime context' := by
  obtain ⟨⟨recs, hw⟩, hin⟩ := h
  obtain ⟨context', out, recs', hs, hw', -⟩ := netStep_waiting hw op
  refine ⟨context', out, hs, ⟨recs', hw'⟩, ?_⟩
  rcases netStep_cases hw hs with
    ⟨hsame, -⟩ | ⟨htick, -⟩ | ⟨rfl, hpos, record, recs'', rfl, hrecord, -⟩
  · rwa [hsame]
  · rw [htick, tick_ledBlinkMode]
    exact fun i => (hin i).tickLed
  · rw [hrecord, ← hw.frontRecord]
    exact recordLed_inTime hin hpos htaken

/-- **The LEDs keep blinking**: in every run whose records are taken in time, after each tick the
counter of every LED in a blink mode is below the threshold. -/
theorem blink_counters_below {contextOk bufOk : Bool} {stack : LedMode}
    {context : NetWiredContext} (hcreate : hyNetWiredCreate contextOk bufOk stack = some context)
    {ops : List NetOp} (hops : EachStep netStep TakenInTime context ops) :
    AllSteps netStep (fun _ _ context' out => out.Ticks → ∀ i,
      Blinks (context'.ledBlinkMode i).ledMode.mode →
        (context'.ledBlinkMode i).cnt < (judgeCondition i).2) context ops :=
  allSteps_of_eachStep AllInTime (fun _ _ h htaken => by
    obtain ⟨context', out, hs, h'⟩ := netStep_allInTime h htaken
    exact ⟨context', out, hs, fun _ i hblinks => (h'.2 i hblinks).2, h'⟩)
    (hyNetWiredCreate_allInTime hcreate) hops

/-- LED 0 is told to blink before the first tick. -/
theorem blink_counters_below_at_once :
    AllSteps netStep (fun _ _ context' out => out.Ticks → ∀ i,
      Blinks (context'.ledBlinkMode i).ledMode.mode →
        (context'.ledBlinkMode i).cnt < (judgeCondition i).2)
      { ledFifo := { buf := List.replicate 64 0, size := 64, useCnt := 0, in_ := 0, out := 0 }
        ledBlinkMode := fun _ => ⟨⟨0, 0⟩, 0, 0⟩, pos := .getInfo, ledMode := ⟨7, 7⟩ }
      [.setLed 0 ledModeSlowBlink, .loop, .loop, .loop, .loop, .loop] := by
  exact blink_counters_below (show hyNetWiredCreate true true ⟨7, 7⟩ = some _ from rfl)
    (by decide +kernel)

/-- LED 0 is told to blink after five ticks: two ticks later its counter is at 7, past its threshold
of 5. -/
theorem blink_counter_past_threshold :
    ∃ (context context' : NetWiredContext) (outs : List NetOut),
      hyNetWiredCreate true true ⟨7, 7⟩ = some context ∧
      run netStep context (List.replicate 10 .loop ++ [.setLed 0 ledModeSlowBlink] ++
        List.replicate 5 .loop) = some (context', outs) ∧
      outs.getLast? = some (.blinked []) ∧
      (context'.ledBlinkMode 0).ledMode.mode = ledModeSlowBlink ∧
      ¬(context'.ledBlinkMode 0).cnt < (judgeCondition 0).2 := by
  refine ⟨_, _, _, rfl, rfl, ?_, ?_, ?_⟩
  all_goals decide +kernel

end HyUtils.NetWired
