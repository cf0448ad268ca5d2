import HyUtils.Fifo.Model

/-!
# Two threads on one fifo

`src/hy_fifo.c` with one thread that puts and one that takes, and no lock: each access to what both
use is a step of its own, byte by byte in a copy. `HyUtilsMinMacro` evaluates its second argument
again when it is the smaller one, so the cursor of the other thread is read twice, and may have
moved in between.

`in` is written by the putting thread only, `out` by the taking one only, and `use_cnt` by both.
Accesses of one thread take effect in the order of the source.

## Main definitions

* `PutPos`, `GetPos`: where the threads are in their calls
* `SharedFifo`: the fifo and the two positions
* `putStep`, `getStep`: the next access of a thread
* `SideOp`, `sharedStep`: calls and accesses in any order, as a component
-/

namespace HyUtils.Fifo

open Region

/-- The calls of the taking thread. -/
inductive GetKind
  | get
  | peek
  | updateOut
  deriving DecidableEq

/-- The position in `HyFifoPut`: before the comparison of the minimum, before its second reading of
`out`, with `done` bytes copied, before `use_cnt` is read, and before it is written. -/
inductive PutPos
  | idle
  | compare (buf : List UInt8) (len : UInt64)
  | choose (buf : List UInt8)
  | copy (buf : List UInt8) (len : UInt64) (done : ℕ)
  | loadUseCnt (len : UInt64)
  | storeUseCnt (len useCnt : UInt64)
  deriving DecidableEq

/-- The position in a call of the taking thread, in the same way; the length is a `uint32_t`. -/
inductive GetPos
  | idle
  | compare (kind : GetKind) (buf : List UInt8) (len : UInt32)
  | choose (kind : GetKind) (buf : List UInt8)
  | copy (kind : GetKind) (buf : List UInt8) (len : UInt32) (done : ℕ)
  | loadUseCnt (len : UInt32)
  | storeUseCnt (len : UInt32) (useCnt : UInt64)
  deriving DecidableEq

/-- The fifo, and the positions of its two threads. -/
structure SharedFifo where
  context : FifoContext
  put : PutPos
  get : GetPos
  deriving DecidableEq

/-- What a step shows: the bytes that are now in the fifo, the bytes that were taken from it or
looked at, the length a call returns after it has counted it, or the used length. -/
inductive StepOut
  | silent
  | accepted (bytes : List UInt8)
  | taken (bytes : List UInt8)
  | peeked (bytes : List UInt8)
  | returned (len : ℕ)
  | usedLen (val : UInt64)
  deriving DecidableEq

/-- The cell the byte `k` of a copy of `len` bytes at `index` is in: the copy goes on at the start
of the buffer. -/
def copyIndex (size index len : UInt64) (k : ℕ) : ℕ :=
  let lenTmp := (hyUtilsMinMacro len (size - index)).toNat
  if k < lenTmp then index.toNat + k else k - lenTmp

/-- The next access of `HyFifoPut`. -/
def putStep (s : SharedFifo) : Option (SharedFifo × StepOut) :=
  let context := s.context
  match s.put with
  | .idle => none
  | .compare buf len =>
    if len < context.size - context.in_ + context.out then
      some ({ s with put := .copy buf len 0 }, .silent)
    else some ({ s with put := .choose buf }, .silent)
  | .choose buf =>
    some ({ s with put := .copy buf (context.size - context.in_ + context.out) 0 }, .silent)
  | .copy buf len done =>
    if done < len.toNat then do
      let inIndex := context.in_ &&& (context.size - 1)
      let byte ← load buf done 1
      let ring ← store context.buf (copyIndex context.size inIndex len done) byte
      return ({ s with
        context := { context with buf := ring }, put := .copy buf len (done + 1) }, .silent)
    else
      some ({ s with
        context := { context with in_ := context.in_ + len }, put := .loadUseCnt len },
        .accepted (buf.take len.toNat))
  | .loadUseCnt len => some ({ s with put := .storeUseCnt len context.useCnt }, .silent)
  | .storeUseCnt len useCnt =>
    some ({ s with context := { context with useCnt := useCnt + len }, put := .idle },
      .returned len.toNat)

/-- The next access of `HyFifoGet`, `HyFifoPeek` or `HyFifoUpdateOut`. -/
def getStep (s : SharedFifo) : Option (SharedFifo × StepOut) :=
  let context := s.context
  match s.get with
  | .idle => none
  | .compare kind buf len =>
    if len.toUInt64 < context.in_ - context.out then
      some ({ s with get := .copy kind buf len 0 }, .silent)
    else some ({ s with get := .choose kind buf }, .silent)
  | .choose kind buf =>
    some ({ s with get := .copy kind buf (context.in_ - context.out).toUInt32 0 }, .silent)
  | .copy kind buf len done =>
    if done < len.toNat then do
      let outIndex := context.out &&& (context.size - 1)
      let byte ← load context.buf (copyIndex context.size outIndex len.toUInt64 done) 1
      let buf ← store buf done byte
      return ({ s with get := .copy kind buf len (done + 1) }, .silent)
    else
      let moved := { context with out := context.out + len.toUInt64 }
      match kind with
      | .get =>
        some ({ s with context := moved, get := .loadUseCnt len }, .taken (buf.take len.toNat))
      | .peek => some ({ s with get := .idle }, .peeked (buf.take len.toNat))
      | .updateOut => some ({ s with context := moved, get := .idle }, .taken (buf.take len.toNat))
  | .loadUseCnt len => some ({ s with get := .storeUseCnt len context.useCnt }, .silent)
  | .storeUseCnt len useCnt =>
    some ({ s with context := { context with useCnt := useCnt - len.toUInt64 }, get := .idle },
      .returned len.toNat)

/-- Where a call of the taking thread starts. A length of 0 is refused, and what
`HyFifoUpdateOut` discards goes through a scratch array of 1024 bytes. -/
def startGet (kind : GetKind) (buf : List UInt8) (len : UInt64) : GetPos :=
  if len = 0 then .idle
  else
    match kind with
    | .updateOut => .compare .updateOut (List.replicate 1024 0) len.toUInt32
    | kind => .compare kind buf len.toUInt32

/-- What happens next: a thread calls a function of the module, or makes its next access; the used
length is one access. -/
inductive SideOp
  | callPut (buf : List UInt8) (len : UInt64)
  | put
  | callGet (kind : GetKind) (buf : List UInt8) (len : UInt64)
  | get
  | usedLen
  deriving DecidableEq

/-- One step. -/
def sharedStep (s : SharedFifo) : SideOp → Option (SharedFifo × StepOut)
  | .callPut buf len =>
    if s.put = .idle then some ({ s with put := .compare buf len }, .silent) else none
  | .put => putStep s
  | .callGet kind buf len =>
    if s.get = .idle then some ({ s with get := startGet kind buf len }, .silent) else none
  | .get => getStep s
  | .usedLen => some (s, .usedLen s.context.useCnt)

/-- The bytes that went in. -/
def accepted (outs : List StepOut) : List UInt8 :=
  outs.flatMap fun | .accepted bytes => bytes | _ => []

/-- The bytes that came out. -/
def taken (outs : List StepOut) : List UInt8 :=
  outs.flatMap fun | .taken bytes => bytes | _ => []

end HyUtils.Fifo
