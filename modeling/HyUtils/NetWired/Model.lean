import HyUtils.Fifo.Model
import HyUtils.Foundation.LittleEndian

/-!
# The LED thread

`src/hy_net_wired.c`: `HyNetWiredSetLed` queues a command record in a byte fifo, and the thread
`_led_loop_cb` polls the fifo every 100 ms, blinks the LEDs, and takes one record at a time. Each
fifo operation is one atomic step, so any order of steps of the producers and of the loop is a run.

The register writes of `_led_set` are not modelled: a step reports the records it is called with.
The loop runs until the module is destroyed.

## Main definitions

* `LedMode`, `LedBlinkMode`: `_led_mode_t` and `_led_blink_mode_t`
* `encode`, `decode`: the eight bytes of a record in memory
* `NetWiredContext`: the context of the module, with the position and the locals of the loop
* `hyNetWiredCreate`, `hyNetWiredSetLed`, `ledLoop`: creation and the two kinds of step
* `netStep`: the module as a component
-/

namespace HyUtils.NetWired

open Fifo LittleEndian

/-- `HY_NET_WIRED_LED_MAX`. -/
abbrev ledMax : ℕ := 2

/-- `HY_NET_WIRED_LED_MODE_OFF`. -/
abbrev ledModeOff : Int32 := 0

/-- `HY_NET_WIRED_LED_MODE_ON`. -/
abbrev ledModeOn : Int32 := 1

/-- `HY_NET_WIRED_LED_MODE_SLOW_BLINK`. -/
abbrev ledModeSlowBlink : Int32 := 2

/-- `HY_NET_WIRED_LED_MODE_FAST_BLINK`. -/
abbrev ledModeFastBlink : Int32 := 3

/-- `_led_mode_t`. -/
@[ext] structure LedMode where
  led : Int32
  mode : Int32
  deriving DecidableEq

/-- `_led_blink_mode_t`. -/
structure LedBlinkMode where
  ledMode : LedMode
  cnt : Int32
  flag : Int32

/-- The eight bytes of a record, on a little-endian host. -/
def encode (record : LedMode) : List UInt8 :=
  leBytes 4 record.led.toUInt32.toNat ++ leBytes 4 record.mode.toUInt32.toNat

/-- The record in eight bytes. -/
def decode (bytes : List UInt8) : LedMode :=
  { led := (UInt32.ofNat (ofLeBytes (bytes.take 4))).toInt32
    mode := (UInt32.ofNat (ofLeBytes (bytes.drop 4))).toInt32 }

/-- The position of `_led_loop_cb`: before it asks for the used length, before it blinks with the
length it read, and before it takes a record. -/
inductive LoopPos
  | getInfo
  | blink (val : UInt64)
  | get
  deriving DecidableEq

/-- `_net_wired_context_t`, with the position of the loop and its local `led_mode`. -/
structure NetWiredContext where
  ledFifo : FifoContext
  ledBlinkMode : Fin ledMax → LedBlinkMode
  pos : LoopPos
  ledMode : LedMode

/-- `judge_condition`: the blink mode of each LED and the count at which it toggles. -/
def judgeCondition : Fin ledMax → Int32 × Int32
  | 0 => (ledModeSlowBlink, 5)
  | 1 => (ledModeFastBlink, 3)

/-- `HyNetWiredCreate`; the flags say whether the allocations of the fifo succeed. The context is
cleared, and the local record of the loop starts as whatever its stack holds. -/
def hyNetWiredCreate (contextOk bufOk : Bool) (stack : LedMode) : Option NetWiredContext := do
  let ledFifo ← hyFifoCreate { size := 8 * 6 } contextOk bufOk
  return { ledFifo, ledBlinkMode := fun _ => ⟨⟨0, 0⟩, 0, 0⟩, pos := .getInfo, ledMode := stack }

/-- `HyNetWiredSetLed`, with the count `HyFifoPut` returns, which it ignores. -/
def hyNetWiredSetLed (context : NetWiredContext) (led mode : Int32) :
    Option (NetWiredContext × UInt64) := do
  let (ledFifo, ret) ← hyFifoPut context.ledFifo (encode ⟨led, mode⟩) 8
  return ({ context with ledFifo }, ret)

/-- One iteration of the blink loop of `_led_loop_cb`, with the record `_led_set` is called
with. -/
def blinkLed (context : NetWiredContext) (i : Fin ledMax) : NetWiredContext × List LedMode :=
  let blink := context.ledBlinkMode i
  let cnt := blink.cnt + 1
  let led : Int32 := Int32.ofNat i
  if blink.ledMode.mode = (judgeCondition i).1 ∧ cnt = (judgeCondition i).2 then
    let ledMode : LedMode := ⟨led, if blink.flag ≠ 0 then ledModeOff else ledModeOn⟩
    let blink := { blink with cnt := 0, flag := if blink.flag = 0 then 1 else 0 }
    ({ context with ledBlinkMode := Function.update context.ledBlinkMode i blink, ledMode },
      [ledMode])
  else
    ({ context with
      ledBlinkMode := Function.update context.ledBlinkMode i { blink with cnt }
      ledMode := { context.ledMode with led } }, [])

/-- What a step lets an observer see: the record a producer offers and the bytes accepted of it,
the used length read, the records `_led_set` is called with in a blink, or what `HyFifoGet`
filled and returned and the record `_led_set` is then called with. -/
inductive NetOut
  | set (record : LedMode) (ret : UInt64)
  | info (val : UInt64)
  | blinked (sets : List LedMode)
  | got (bytes : List UInt8) (ret : UInt64) (sets : List LedMode)
  deriving DecidableEq

/-- The record just taken is kept for its LED, and `off` and `on` take effect at once. -/
def recordLed (context : NetWiredContext) (ledMode : LedMode) : NetWiredContext × List LedMode :=
  ({ context with
      ledMode
      pos := .getInfo
      ledBlinkMode := fun i =>
        if ledMode.led = Int32.ofNat i then { context.ledBlinkMode i with ledMode }
        else context.ledBlinkMode i },
    if ledMode.mode = ledModeOff ∨ ledMode.mode = ledModeOn then [ledMode] else [])

/-- One step of `_led_loop_cb`. -/
def ledLoop (context : NetWiredContext) : Option (NetWiredContext × NetOut) :=
  match context.pos with
  | .getInfo => do
    let val ← hyFifoGetInfo context.ledFifo .usedLen
    return ({ context with pos := .blink val }, .info val)
  | .blink val =>
    let (context, sets₀) := blinkLed context 0
    let (context, sets₁) := blinkLed context 1
    some ({ context with pos := if val = 0 then .getInfo else .get }, .blinked (sets₀ ++ sets₁))
  | .get => do
    let (ledFifo, bytes, ret) ← hyFifoGet context.ledFifo (encode context.ledMode) 8
    let (context, sets) := recordLed { context with ledFifo } (decode bytes)
    return (context, .got bytes ret sets)

/-- The steps: a call of `HyNetWiredSetLed`, and a step of the loop. -/
inductive NetOp
  | setLed (led mode : Int32)
  | loop
  deriving DecidableEq

/-- One step. -/
def netStep (context : NetWiredContext) : NetOp → Option (NetWiredContext × NetOut)
  | .setLed led mode =>
    (hyNetWiredSetLed context led mode).map fun r => (r.1, .set ⟨led, mode⟩ r.2)
  | .loop => ledLoop context

end HyUtils.NetWired
