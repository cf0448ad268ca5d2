import HyUtils.NetWired.Model
import HyUtils.Fifo.Info

/-!
# The LED fifo is a queue of records

The fifo of the LED thread has room for 64 bytes, a whole number of records of 8, and both its
users move 8 bytes at a time. So a record is accepted whole or dropped whole, and the loop, which
waits for a used length other than 0, always takes the oldest record whole.

## Main definitions

* `Waiting`: the fifo holds exactly the given records, and the loop takes only what is there
* `NetOut.accepted`, `NetOp.calls`, `NetOut.dequeued`, `NetOut.Whole`: what a step moves

## Main results

* `decode_encode`: a record survives the fifo
* `netStep_waiting`: what one step does to the waiting records
* `netStep_accepted`: exactly the calls that find the fifo full are dropped
* `led_commands`: the commands taken are the commands accepted, in order
-/

namespace HyUtils.NetWired

open Fifo LittleEndian Runs

/-! ## Records -/

@[simp] theorem length_encode (record : LedMode) : (encode record).length = 8 := by
  simp [encode]

theorem toInt32_ofLeBytes (x : Int32) :
    (UInt32.ofNat (ofLeBytes (leBytes 4 x.toUInt32.toNat))).toInt32 = x := by
  have hx := x.toUInt32.toNat_lt
  rw [ofLeBytes_leBytes, Nat.mod_eq_of_lt (by omega), UInt32.ofNat_toNat]
  rfl

theorem decode_encode (record : LedMode) : decode (encode record) = record := by
  rw [decode, encode, List.take_left' (length_leBytes 4 _), List.drop_left' (length_leBytes 4 _),
    toInt32_ofLeBytes, toInt32_ofLeBytes]

/-! ## One step -/

/-- The command a step accepts. -/
def NetOut.accepted : NetOut → List LedMode
  | .set record ret => if ret = 8 then [record] else []
  | .info _ | .blinked _ | .got _ _ _ => []

/-- The call a step makes. -/
def NetOp.calls : NetOp → List LedMode
  | .setLed led mode => [⟨led, mode⟩]
  | .loop => []

/-- The command a step takes. -/
def NetOut.dequeued : NetOut → List LedMode
  | .got bytes ret _ => if ret = 8 then [decode bytes] else []
  | .set _ _ | .info _ | .blinked _ => []

/-- The step moves a whole record or nothing; what is taken is a whole record. -/
def NetOut.Whole : NetOut → Prop
  | .set _ ret => ret = 8 ∨ ret = 0
  | .got bytes ret _ => ret = 8 ∧ ∃ record, bytes = encode record
  | .info _ | .blinked _ => True

/-- The loop is about to take a record. -/
def LoopPos.Takes : LoopPos → Prop
  | .getInfo => False
  | .blink val => val ≠ 0
  | .get => True

/-- The fifo holds exactly the records `recs`, counts them, and is not empty when the loop is about
to take one. -/
structure Waiting (context : NetWiredContext) (recs : List LedMode) : Prop where
  holds : ∃ q : BoundedQueue UInt8 64, Represents context.ledFifo q ∧ q.Holds encode recs
  counted : UsedLenExact context.ledFifo
  ready : context.pos.Takes → recs ≠ []

theorem Waiting.contents {context : NetWiredContext} {recs : List LedMode}
    (h : Waiting context recs) : context.ledFifo.contents = (recs.map encode).flatten := by
  obtain ⟨q, hrep, hq⟩ := h.holds
  rw [hrep.2.2, hq]

theorem Waiting.length_contents {context : NetWiredContext} {recs : List LedMode}
    (h : Waiting context recs) : context.ledFifo.contents.length = 8 * recs.length := by
  obtain ⟨q, hrep, hq⟩ := h.holds
  rw [hrep.2.2, hq.length_items length_encode]

theorem Waiting.of_ledFifo {context context' : NetWiredContext} {recs : List LedMode}
    (h : Waiting context recs) (hf : context'.ledFifo = context.ledFifo)
    (ready : context'.pos.Takes → recs ≠ []) : Waiting context' recs :=
  ⟨by rw [hf]; exact h.holds, by rw [hf]; exact h.counted, ready⟩

theorem hyNetWiredCreate_waiting {contextOk bufOk : Bool} {stack : LedMode}
    {context : NetWiredContext} (hcreate : hyNetWiredCreate contextOk bufOk stack = some context) :
    Waiting context [] := by
  obtain ⟨ledFifo, hfifo, hc⟩ := Option.bind_eq_some_iff.mp hcreate
  obtain rfl := Option.some.inj hc
  obtain ⟨hwf, hsize, hcontents, -⟩ := hyFifoCreate_wf hfifo
  refine ⟨⟨BoundedQueue.empty UInt8 64, ⟨hwf, ?_, hcontents⟩, BoundedQueue.holds_empty⟩,
    hyFifoCreate_usedLen hfifo, fun h => h.elim⟩
  -- A request of 48 bytes is rounded to 64.
  dsimp only
  rw [hsize]
  decide +kernel

/-- A call that keeps the count in step keeps the fifo a queue. -/
theorem fifoStep_represents {context : FifoContext} {q : BoundedQueue UInt8 64}
    (h : Represents context q) (hused : UsedLenExact context) (op : FifoOp)
    (hop : op.QueueCall) (hkeep : KeepsCount context op) :
    ∃ context' q' out, fifoStep context op = some (context', out) ∧
      queueStep q op = some (q', out) ∧ Represents context' q' ∧ UsedLenExact context' := by
  obtain ⟨context', q', out, hs, hq, hrep⟩ := represents_step h op hop
  obtain ⟨c, o, hs', hused'⟩ := (usedLenExact_step h.1 hused op hop.valid).mpr hkeep
  obtain ⟨rfl, -⟩ := Prod.mk.inj (Option.some.inj (hs.symm.trans hs'))
  exact ⟨context', q', out, hs, hq, hrep, hused'⟩

/-- **A producer** appends its record, or drops it when eight records wait. -/
theorem hyNetWiredSetLed_waiting {context : NetWiredContext} {recs : List LedMode}
    (h : Waiting context recs) (led mode : Int32) :
    ∃ context' ret, hyNetWiredSetLed context led mode = some (context', ret) ∧
      ((recs.length < 8 ∧ ret = 8 ∧ Waiting context' (recs ++ [⟨led, mode⟩])) ∨
        (8 ≤ recs.length ∧ ret = 0 ∧ Waiting context' recs)) := by
  obtain ⟨q, hrep, hq⟩ := h.holds
  obtain ⟨ledFifo, q', out, hs, hqs, hrep', hused'⟩ := fifoStep_represents hrep h.counted
    (.put (encode ⟨led, mode⟩) 8) ⟨by simp, by decide⟩ trivial
  obtain ⟨⟨f, ret⟩, hput, heq⟩ := Option.map_eq_some_iff.mp hs
  obtain ⟨rfl, rfl⟩ := Prod.mk.inj heq
  obtain ⟨rfl, hout⟩ := Prod.mk.inj (Option.some.inj hqs)
  have hret : ret.toNat = q.room 8 := (congrArg FifoOut.ret hout).symm
  have htake : (encode ⟨led, mode⟩).take (8 : UInt64).toNat = encode ⟨led, mode⟩ :=
    List.take_of_length_le (by simp)
  rw [htake] at hrep'
  refine ⟨{ context with ledFifo := f }, ret, by rw [hyNetWiredSetLed, hput]; rfl, ?_⟩
  -- Either there is room for the whole record, or, 8 dividing 64, for none of it.
  by_cases hlt : 8 * (recs.length + 1) ≤ 64
  · obtain ⟨hroom, hq'⟩ := hq.put_of_lt length_encode ⟨led, mode⟩ hlt
    exact .inl ⟨by omega, UInt64.toNat_inj.mp (hret.trans hroom), ⟨_, hrep', hq'⟩, hused', by simp⟩
  · obtain ⟨hroom, hq'⟩ :=
      hq.put_of_full length_encode ⟨led, mode⟩ (by decide) (by decide) (by omega)
    exact .inr
      ⟨by omega, UInt64.toNat_inj.mp (hret.trans hroom), ⟨_, hrep', hq'⟩, hused', h.ready⟩

/-- **The loop's read** of a fifo that is not empty takes the oldest record. -/
theorem hyFifoGet_waiting {context : NetWiredContext} {record : LedMode} {recs : List LedMode}
    (h : Waiting context (record :: recs)) (buf : LedMode) :
    ∃ ledFifo, hyFifoGet context.ledFifo (encode buf) 8 = some (ledFifo, encode record, 8) ∧
      ∀ context' : NetWiredContext, context'.ledFifo = ledFifo → context'.pos = .getInfo →
        Waiting context' recs := by
  obtain ⟨q, hrep, hq⟩ := h.holds
  obtain ⟨ledFifo, q', out, hs, hqs, hrep', hused'⟩ := fifoStep_represents hrep h.counted
    (.get (encode buf) 8) ⟨by simp, by decide⟩ trivial
  obtain ⟨⟨f, bytes, ret⟩, hget, heq⟩ := Option.map_eq_some_iff.mp hs
  obtain ⟨rfl, rfl⟩ := Prod.mk.inj heq
  obtain ⟨rfl, hout⟩ := Prod.mk.inj (Option.some.inj hqs)
  -- A record waits, so the read is not short.
  have hk : min (8 : UInt64).toNat q.items.length = 8 := by
    rw [hq.length_items length_encode, List.length_cons]
    exact min_eq_left (by simp)
  obtain ⟨htake, hq'⟩ := hq.get_cons length_encode
  rw [hk] at hout hrep'
  obtain ⟨hret, hbytes⟩ := FifoOut.mk.inj hout
  rw [htake, List.drop_eq_nil_of_le (by simp), List.append_nil] at hbytes
  obtain rfl : ret = 8 := UInt64.toNat_inj.mp hret.symm
  refine ⟨f, by rw [hget, hbytes], fun context' hf hpos => ⟨⟨_, hf ▸ hrep', hq'⟩, hf ▸ hused', ?_⟩⟩
  rw [hpos]
  exact fun h => h.elim

@[simp] theorem blinkLed_ledFifo (context : NetWiredContext) (i : Fin ledMax) :
    (blinkLed context i).1.ledFifo = context.ledFifo := by
  unfold blinkLed
  dsimp only
  split_ifs <;> rfl

theorem dequeued_got (record : LedMode) (sets : List LedMode) :
    (NetOut.got (encode record) 8 sets).dequeued = [record] := by
  rw [NetOut.dequeued, if_pos rfl, decode_encode]

/-- The loop takes the oldest record. -/
theorem ledLoop_get {context : NetWiredContext} {record : LedMode} {recs : List LedMode}
    (h : Waiting context (record :: recs)) (hpos : context.pos = .get) :
    ∃ ledFifo, ledLoop context = some ((recordLed { context with ledFifo } record).1,
        .got (encode record) 8 (recordLed { context with ledFifo } record).2) ∧
      Waiting (recordLed { context with ledFifo } record).1 recs := by
  obtain ⟨ledFifo, hget, hw⟩ := hyFifoGet_waiting h context.ledMode
  refine ⟨ledFifo, ?_, hw _ rfl rfl⟩
  rw [ledLoop, hpos]
  dsimp only
  rw [hget, Option.bind_eq_bind, Option.bind_some, decode_encode]
  rfl

/-- **The loop** sees the length of what waits, and takes the oldest record when something does. -/
theorem ledLoop_waiting {context : NetWiredContext} {recs : List LedMode}
    (h : Waiting context recs) :
    ∃ context' out recs', ledLoop context = some (context', out) ∧ Waiting context' recs' ∧
      out.Whole ∧ out.accepted = [] ∧ recs = out.dequeued ++ recs' := by
  cases hpos : context.pos with
  | getInfo =>
    obtain ⟨q, hrep, hq⟩ := h.holds
    refine ⟨{ context with
      pos := .blink (context.ledFifo.in_ - context.ledFifo.out) },
      .info (context.ledFifo.in_ - context.ledFifo.out), recs, ?_,
      h.of_ledFifo rfl fun hval => ?_, trivial, rfl, rfl⟩
    · rw [ledLoop, hpos]
      dsimp only
      rw [show hyFifoGetInfo context.ledFifo .usedLen = _ from h.counted]
      rfl
    · -- a length other than 0 is read only when something waits
      rintro rfl
      apply hval
      apply UInt64.toNat_inj.mp
      change context.ledFifo.used = 0
      rw [hrep.used_eq, hq.length_items length_encode]
      rfl
  | blink val =>
    -- blinking does not touch the fifo
    refine ⟨{ (blinkLed (blinkLed context 0).1 1).1 with
        pos := if val = 0 then .getInfo else .get }, .blinked _, recs, by rw [ledLoop, hpos],
      h.of_ledFifo (by simp) fun ht => h.ready ?_, trivial, rfl, rfl⟩
    rw [hpos]
    rintro rfl
    exact ht
  | get =>
    -- what waited when the length was read waits still: only the loop takes
    have hne : recs ≠ [] := h.ready (by rw [hpos]; trivial)
    obtain ⟨record, recs', rfl⟩ := List.exists_cons_of_ne_nil hne
    obtain ⟨ledFifo, hget, hw⟩ := ledLoop_get h hpos
    exact ⟨_, _, recs', hget, hw, ⟨rfl, record, rfl⟩, rfl, dequeued_got record _ ▸ rfl⟩

/-- **One step**: what waits afterwards is what waited and what was accepted, less what was
taken. -/
theorem netStep_waiting {context : NetWiredContext} {recs : List LedMode}
    (h : Waiting context recs) (op : NetOp) :
    ∃ context' out recs', netStep context op = some (context', out) ∧ Waiting context' recs' ∧
      out.Whole ∧ recs ++ out.accepted = out.dequeued ++ recs' := by
  cases op with
  | setLed led mode =>
    obtain ⟨context', ret, hset, h' | h'⟩ := hyNetWiredSetLed_waiting h led mode
    · obtain ⟨-, rfl, hw⟩ := h'
      exact ⟨context', .set ⟨led, mode⟩ 8, _, by rw [netStep, hset]; rfl, hw, .inl rfl, rfl⟩
    · obtain ⟨-, rfl, hw⟩ := h'
      exact ⟨context', .set ⟨led, mode⟩ 0, _, by rw [netStep, hset]; rfl, hw, .inr rfl,
        List.append_nil recs⟩
  | loop =>
    obtain ⟨context', out, recs', hs, hw, hwhole, hacc, hrecs⟩ := ledLoop_waiting h
    exact ⟨context', out, recs', hs, hw, hwhole, by rw [hacc, List.append_nil, hrecs]⟩

/-- **Exactly the calls that find the fifo full are dropped.** -/
theorem netStep_accepted {context context' : NetWiredContext} {recs : List LedMode} {op : NetOp}
    {out : NetOut} (h : Waiting context recs) (hs : netStep context op = some (context', out)) :
    out.accepted = if context.ledFifo.contents.length < 64 then op.calls else [] := by
  cases op with
  | setLed led mode =>
    rw [h.length_contents]
    obtain ⟨context₁, ret, hset, h'⟩ := hyNetWiredSetLed_waiting h led mode
    rw [netStep, hset] at hs
    obtain ⟨rfl, rfl⟩ := Prod.mk.inj (Option.some.inj hs)
    rcases h' with ⟨hlen, rfl, -⟩ | ⟨hlen, rfl, -⟩
    · rw [if_pos (by omega)]
      rfl
    · rw [if_neg (by omega)]
      rfl
  | loop =>
    obtain ⟨context₁, out₁, recs', hs₁, -, -, hacc, -⟩ := ledLoop_waiting h
    obtain ⟨rfl, rfl⟩ := Prod.mk.inj (Option.some.inj (hs₁.symm.trans hs))
    rw [hacc]
    exact (ite_self _).symm

/-- The step is a tick. -/
def NetOut.Ticks : NetOut → Prop
  | .blinked _ => True
  | .set _ _ | .info _ | .got _ _ _ => False

/-- **The table of blink modes** changes in two kinds of step: a tick blinks the LEDs, and a record
taken is kept for its LED. -/
theorem netStep_cases {context context' : NetWiredContext} {recs : List LedMode} {op : NetOp}
    {out : NetOut} (h : Waiting context recs) (hs : netStep context op = some (context', out)) :
    (context'.ledBlinkMode = context.ledBlinkMode ∧ out.dequeued = [] ∧ ¬out.Ticks) ∨
    (context'.ledBlinkMode = (blinkLed (blinkLed context 0).1 1).1.ledBlinkMode ∧
      out.dequeued = [] ∧ out.Ticks) ∨
    (op = .loop ∧ context.pos = .get ∧ ∃ record recs', recs = record :: recs' ∧
      context'.ledBlinkMode = (recordLed context record).1.ledBlinkMode ∧
      out.dequeued = [record] ∧ ¬out.Ticks) := by
  cases op with
  | setLed led mode =>
    obtain ⟨r, hset, heq⟩ := Option.map_eq_some_iff.mp hs
    obtain ⟨rfl, rfl⟩ := Prod.mk.inj heq
    obtain ⟨⟨ledFifo, ret⟩, -, hr⟩ := Option.bind_eq_some_iff.mp hset
    obtain rfl := Option.some.inj hr
    exact .inl ⟨rfl, rfl, id⟩
  | loop =>
    change ledLoop context = some (context', out) at hs
    cases hpos : context.pos with
    | getInfo =>
      rw [ledLoop, hpos] at hs
      obtain ⟨val, -, hr⟩ := Option.bind_eq_some_iff.mp hs
      obtain ⟨rfl, rfl⟩ := Prod.mk.inj (Option.some.inj hr)
      exact .inl ⟨rfl, rfl, id⟩
    | blink val =>
      rw [ledLoop, hpos] at hs
      obtain ⟨rfl, rfl⟩ := Prod.mk.inj (Option.some.inj hs)
      exact .inr (.inl ⟨rfl, rfl, trivial⟩)
    | get =>
      have hne : recs ≠ [] := h.ready (by rw [hpos]; trivial)
      obtain ⟨record, recs', rfl⟩ := List.exists_cons_of_ne_nil hne
      obtain ⟨ledFifo, hget, -⟩ := ledLoop_get h hpos
      obtain ⟨rfl, rfl⟩ := Prod.mk.inj (Option.some.inj (hget.symm.trans hs))
      exact .inr (.inr ⟨rfl, rfl, record, recs', rfl, rfl, dequeued_got record _, id⟩)

/-! ## Runs -/

/-- The module after the steps `outs`, with the records `recs` in its fifo. -/
structure Served (outs : List NetOut) (context : NetWiredContext) (recs : List LedMode) :
    Prop where
  waiting : Waiting context recs
  whole : ∀ out ∈ outs, out.Whole
  order : outs.flatMap NetOut.accepted = outs.flatMap NetOut.dequeued ++ recs

theorem Served.snoc {outs : List NetOut} {context context' : NetWiredContext}
    {recs recs' : List LedMode} {out : NetOut} (h : Served outs context recs)
    (hw : Waiting context' recs') (hout : out.Whole)
    (hstep : recs ++ out.accepted = out.dequeued ++ recs') :
    Served (outs ++ [out]) context' recs' := by
  refine ⟨hw, ?_, ?_⟩
  · intro x hx
    rcases List.mem_append.mp hx with hx | hx
    · exact h.whole x hx
    · obtain rfl := List.mem_singleton.mp hx
      exact hout
  · simp only [List.flatMap_append, List.flatMap_singleton, h.order, List.append_assoc, hstep]

/-- Every step completes. -/
theorem run_netStep_completes {contextOk bufOk : Bool} {stack : LedMode}
    {context : NetWiredContext} (hcreate : hyNetWiredCreate contextOk bufOk stack = some context)
    (ops : List NetOp) : ∃ context' outs, run netStep context ops = some (context', outs) :=
  run_completes (P := fun context => ∃ recs, Waiting context recs)
    (fun s op ⟨recs, hw⟩ _ => by
      obtain ⟨t, out, recs', hs, hw', -⟩ := netStep_waiting hw op
      exact ⟨t, out, hs, recs', hw'⟩) ⟨[], hyNetWiredCreate_waiting hcreate⟩
    fun _ _ => (trivial : True)

/-- **Every run** accepts exactly the calls that do not find the fifo full. -/
theorem netStep_allAccepted {context : NetWiredContext} {recs : List LedMode}
    (h : Waiting context recs) {ops : List NetOp} :
    AllSteps netStep (fun context op _ out =>
      out.accepted = if context.ledFifo.contents.length < 64 then op.calls else []) context ops :=
  allSteps_of_eachStep (C := fun _ _ => True) (fun context => ∃ recs, Waiting context recs)
    (fun _ op ⟨recs, hw⟩ _ => by
      obtain ⟨context', out, recs', hs, hw', -⟩ := netStep_waiting hw op
      exact ⟨context', out, hs, netStep_accepted hw hs, recs', hw'⟩)
    ⟨recs, h⟩ eachStep_true

/-- **The LED fifo is a queue of records**: in every run of producers and the loop, each call is
accepted whole or not at all, the latter exactly when it finds the fifo full, each read takes a
whole record, and the commands accepted are the commands taken, in order, followed by the commands
in the fifo. -/
theorem led_commands {contextOk bufOk : Bool} {stack : LedMode} {context : NetWiredContext}
    (hcreate : hyNetWiredCreate contextOk bufOk stack = some context) (ops : List NetOp) :
    ∃ (context' : NetWiredContext) (outs : List NetOut) (recs : List LedMode),
      run netStep context ops = some (context', outs) ∧ (∀ out ∈ outs, out.Whole) ∧
      AllSteps netStep (fun context op _ out =>
        out.accepted = if context.ledFifo.contents.length < 64 then op.calls else []) context ops ∧
      outs.flatMap NetOut.accepted = outs.flatMap NetOut.dequeued ++ recs ∧
      context'.ledFifo.contents = (recs.map encode).flatten := by
  have hinit : Served [] context [] := ⟨hyNetWiredCreate_waiting hcreate, by simp, rfl⟩
  obtain ⟨context', outs, hrun⟩ := run_netStep_completes hcreate ops
  -- Every step keeps the order of the records.
  obtain ⟨recs, h⟩ : ∃ recs, Served outs context' recs :=
    run_history (fun outs context => ∃ recs, Served outs context recs)
      (fun hist s op t out ⟨recs, h⟩ _ hs => by
        obtain ⟨t', out', recs', hs', hw, hout, horder⟩ := netStep_waiting h.waiting op
        obtain ⟨rfl, rfl⟩ := Prod.mk.inj (Option.some.inj (hs'.symm.trans hs))
        exact ⟨recs', h.snoc hw hout horder⟩) ⟨[], hinit⟩ (fun _ _ => (trivial : True)) hrun
  exact ⟨context', outs, recs, hrun, h.whole, netStep_allAccepted hinit.waiting, h.order,
    h.waiting.contents⟩

theorem led_commands_set_take :
    let context : NetWiredContext :=
      { ledFifo := { buf := List.replicate 64 0, size := 64, useCnt := 0, in_ := 0, out := 0 }
        ledBlinkMode := fun _ => ⟨⟨0, 0⟩, 0, 0⟩, pos := .getInfo, ledMode := ⟨7, 7⟩ }
    let ops : List NetOp := [.setLed 0 2, .loop, .setLed 1 1, .loop, .loop]
    ∃ (context' : NetWiredContext) (outs : List NetOut) (recs : List LedMode),
      run netStep context ops = some (context', outs) ∧ (∀ out ∈ outs, out.Whole) ∧
      AllSteps netStep (fun context op _ out =>
        out.accepted = if context.ledFifo.contents.length < 64 then op.calls else []) context ops ∧
      outs.flatMap NetOut.accepted = outs.flatMap NetOut.dequeued ++ recs ∧
      context'.ledFifo.contents = (recs.map encode).flatten :=
  led_commands (show hyNetWiredCreate true true ⟨7, 7⟩ = some _ from rfl) _

end HyUtils.NetWired
