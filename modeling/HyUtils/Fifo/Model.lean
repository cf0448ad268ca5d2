import HyUtils.Foundation.Region
import HyUtils.Foundation.Run

/-!
# The byte fifo

`src/hy_fifo.c` on a 64-bit host: `size_t` is `UInt64` and `uint32_t` is `UInt32`, with the
truncations the source makes. Buffers are regions, so a copy out of bounds is a missing result.
Handles and buffers are non-`NULL`.

## Main definitions

* `FifoContext`: `_fifo_context_t`
* `hyFifoCreate`, `hyFifoPut`, `hyFifoGet`, `hyFifoPeek`, `hyFifoUpdateOut`, `hyFifoGetInfo`,
  `hyFifoClean`: the functions of the module
* `FifoOp`, `fifoStep`: the operations, as a component
-/

namespace HyUtils.Fifo

open Region

/-! ## Macros of `hy_utils.h` -/

/-- `HyUtilsMinMacro`, at `size_t`. -/
def hyUtilsMinMacro (x y : UInt64) : UInt64 := if x < y then x else y

/-- `HyUtilsIsPowerOf2`, at `size_t`. -/
def hyUtilsIsPowerOf2 (x : UInt64) : Bool := x != 0 && x &&& (x - 1) == 0

/-! ## The module -/

/-- `HyFifoConfig_t`. -/
structure HyFifoConfig where
  size : UInt64

/-- `_fifo_context_t`. -/
structure FifoContext where
  buf : List UInt8
  size : UInt64
  useCnt : UInt64
  in_ : UInt64
  out : UInt64
  deriving DecidableEq

/-- `HyFifoInfoType_t`; `max` is not a kind of information. -/
inductive HyFifoInfoType
  | totalLen
  | usedLen
  | freeLen
  | max

/-- The loop of `_HyUtilsNumTo2N2`: `i` doubles for each bit of `num` shifted out. A `uint32_t`
is zero after at most 32 shifts. -/
def numTo2N2Loop : ℕ → UInt32 → UInt32 → UInt32
  | 0, _, i => i
  | fuel + 1, num, i =>
    let num := num >>> 1
    if num ≠ 0 then numTo2N2Loop fuel num (i <<< 1) else i

/-- `_HyUtilsNumTo2N2`. -/
def hyUtilsNumTo2N2 (num : UInt32) : UInt32 :=
  let i := numTo2N2Loop 32 num 1
  if i < num then i <<< 1 else i

/-- The size `HyFifoCreate` gives the buffer. The argument of `_HyUtilsNumTo2N2` is truncated to
32 bits. -/
def createSize (size : UInt64) : UInt64 :=
  if !hyUtilsIsPowerOf2 size || size > 0x80000000 then (hyUtilsNumTo2N2 size.toUInt32).toUInt64
  else size

/-- `HyFifoCreate`; the flags say whether the two allocations succeed. Both blocks are cleared
when they are allocated. -/
def hyFifoCreate (config : HyFifoConfig) (contextOk bufOk : Bool) : Option FifoContext :=
  let size := createSize config.size
  if contextOk && bufOk then
    some { buf := List.replicate size.toNat 0, size, useCnt := 0, in_ := 0, out := 0 }
  else none

/-- `_get_data_com`: copy up to `len` unread bytes to the start of `buf`. -/
def getDataCom (context : FifoContext) (buf : List UInt8) (len : UInt32) :
    Option (List UInt8 × UInt32) := do
  let len := (hyUtilsMinMacro len.toUInt64 (context.in_ - context.out)).toUInt32
  let outIndex := context.out &&& (context.size - 1)
  let lenTmp := (hyUtilsMinMacro len.toUInt64 (context.size - outIndex)).toUInt32
  let buf ← memcpy buf 0 context.buf outIndex.toNat lenTmp.toNat
  let buf ← memcpy buf lenTmp.toNat context.buf 0 (len - lenTmp).toNat
  return (buf, len)

/-- `HyFifoPut`. -/
def hyFifoPut (context : FifoContext) (buf : List UInt8) (len : UInt64) :
    Option (FifoContext × UInt64) := do
  let len := hyUtilsMinMacro len (context.size - context.in_ + context.out)
  let inIndex := context.in_ &&& (context.size - 1)
  let lenTmp := hyUtilsMinMacro len (context.size - inIndex)
  let ring ← memcpy context.buf inIndex.toNat buf 0 lenTmp.toNat
  let ring ← memcpy ring 0 buf lenTmp.toNat (len - lenTmp).toNat
  return ({ context with
    buf := ring, in_ := context.in_ + len, useCnt := context.useCnt + len }, len)

/-- `HyFifoGet`, with the destination after the call. -/
def hyFifoGet (context : FifoContext) (buf : List UInt8) (len : UInt64) :
    Option (FifoContext × List UInt8 × UInt64) :=
  if len = 0 then some (context, buf, 0)
  else do
    let (buf, len) ← getDataCom context buf len.toUInt32
    return ({ context with
      out := context.out + len.toUInt64, useCnt := context.useCnt - len.toUInt64 },
      buf, len.toUInt64)

/-- `HyFifoPeek`, with the destination after the call. -/
def hyFifoPeek (context : FifoContext) (buf : List UInt8) (len : UInt64) :
    Option (List UInt8 × UInt64) :=
  if len = 0 then some (buf, 0)
  else do
    let (buf, len) ← getDataCom context buf len.toUInt32
    return (buf, len.toUInt64)

/-- `HyFifoUpdateOut`: the bytes are discarded through a scratch array of 1024 bytes. -/
def hyFifoUpdateOut (context : FifoContext) (len : UInt64) : Option (FifoContext × UInt64) :=
  if len = 0 then some (context, 0)
  else do
    let (_, len) ← getDataCom context (List.replicate 1024 0) len.toUInt32
    return ({ context with out := context.out + len.toUInt64 }, len.toUInt64)

/-- `HyFifoGetInfo`: the value stored through `val`, if one is. -/
def hyFifoGetInfo (context : FifoContext) : HyFifoInfoType → Option UInt64
  | .totalLen => some context.size
  | .usedLen => some context.useCnt
  | .freeLen => some (context.size - (context.in_ + context.out))
  | .max => none

/-- `HyFifoClean`. -/
def hyFifoClean (context : FifoContext) : Option FifoContext := do
  let buf ← memset context.buf 0 0 context.size.toNat
  return { context with buf, in_ := 0, out := 0 }

/-! ## The module as a component -/

/-- A call of the module, with its buffer and its length. -/
inductive FifoOp
  | put (buf : List UInt8) (len : UInt64)
  | get (buf : List UInt8) (len : UInt64)
  | peek (buf : List UInt8) (len : UInt64)
  | updateOut (len : UInt64)
  | clean

/-- The contract of a caller: its buffer has at least the length it passes. -/
def FifoOp.Valid : FifoOp → Prop
  | .put buf len | .get buf len | .peek buf len => len.toNat ≤ buf.length
  | .updateOut _ | .clean => True

/-- What a call gives its caller: the value returned, and the buffer it filled. -/
structure FifoOut where
  ret : ℕ
  buf : List UInt8
  deriving DecidableEq

/-- One call. -/
def fifoStep (context : FifoContext) : FifoOp → Option (FifoContext × FifoOut)
  | .put buf len => (hyFifoPut context buf len).map fun r => (r.1, ⟨r.2.toNat, buf⟩)
  | .get buf len => (hyFifoGet context buf len).map fun r => (r.1, ⟨r.2.2.toNat, r.2.1⟩)
  | .peek buf len => (hyFifoPeek context buf len).map fun r => (context, ⟨r.2.toNat, r.1⟩)
  | .updateOut len => (hyFifoUpdateOut context len).map fun r => (r.1, ⟨r.2.toNat, []⟩)
  | .clean => (hyFifoClean context).map fun context => (context, ⟨0, []⟩)

end HyUtils.Fifo
