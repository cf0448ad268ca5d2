import HyUtils.Foundation.BoundedQueue
import HyUtils.Foundation.Region

/-!
# The AT command framework

`src/hy_at_utils.c`: a state machine over the bytes an AT module sends and the commands queued for
it. `HyAtUtilsPutData` feeds the fifo, `HyAtUtilsWriteCmd` queues a command, and each call of
`HyAtUtilsProcess` makes one step.

The fifo is a byte queue, and a buffer of `HyBufUnionCreate` is always granted.
An entry of the command list carries the number of its creation, so that entries can be told apart;
what the list head of the source yields on an empty list, the context itself, is a fault. The text
that `HY_UTILS_COPY` puts in a signal frame is left out: a signal frame is reported by its length.

## Main definitions

* `AtState`: the states, and `AtState.ofCode`, the state of a code in the catch table
* `AtCatchStr`, `AtCmd`, `AtConfig`: the records of the interface
* `AtUtilsContext config`: the context of a framework created with `config`
* `findFrameTag`, `handleIpdData`, `readHandle`, `writeHandle`: the parts of a step
* `hyAtUtilsCreate`, `hyAtUtilsPutData`, `hyAtUtilsWriteCmd`, `hyAtUtilsProcess`, `hyAtUtilsClean`
* `atStep`: the framework as a component
-/

namespace HyUtils.AtUtils

/-- `AT_STATE_*`; a code outside the enumeration is `unknown`. -/
inductive AtState
  | idle
  | read
  | readHead
  | readReady
  | readReady1
  | readReady2
  | readOk
  | readConnectOk
  | readSignalCsq
  | readSignalCwjapDef
  | readIpdData
  | readFaild
  | readError
  | readErrorAlreadyConnected
  | readBusyS
  | readSend
  | readClosed
  | readMax
  | write
  | writeCmd
  | writeCmdWait
  | writeData
  | writeMax
  | unknown
  deriving DecidableEq

/-- The states in the order of their codes. -/
def AtState.codes : List AtState :=
  [.idle, .read, .readHead, .readReady, .readReady1, .readReady2, .readOk, .readConnectOk,
    .readSignalCsq, .readSignalCwjapDef, .readIpdData, .readFaild, .readError,
    .readErrorAlreadyConnected, .readBusyS, .readSend, .readClosed, .readMax, .write, .writeCmd,
    .writeCmdWait, .writeData, .writeMax]

/-- The state of a code. -/
def AtState.ofCode (code : UInt8) : AtState := AtState.codes.getD code.toNat .unknown

/-- `AtCatchStr_t`: a string to catch, without its terminating NUL, and the code of its state. -/
structure AtCatchStr where
  state : UInt8
  catchStr : List UInt8

/-- `AtCmd_t`. -/
structure AtCmd where
  cmd : List UInt8
  data : List UInt8
  dataLen : UInt16
  waitTime : UInt16
  retry : UInt8
  deriving DecidableEq

/-- `AtConfig_t`; of a callback only whether it is set, and for `fifo_len` what the fifo that is
created for it holds. -/
structure AtConfig where
  writeCb : Bool
  handleFrameCb : Bool
  catchStr : List AtCatchStr
  fifoLen : ℕ
  atCmdNum : UInt8
  isCmdOk : UInt8

/-- `at_cmd_list_t`, with the number of its creation. -/
structure AtCmdList where
  node : ℕ
  atCmd : AtCmd
  delCnt : UInt8
  deriving DecidableEq

/-- `at_utils_context_t`; the fields copied from the configuration are those of `config`. -/
structure AtUtilsContext (config : AtConfig) where
  writeList : List AtCmdList
  fifo : BoundedQueue UInt8 config.fifoLen
  sysTick : UInt32
  bufUnion : Option (List UInt8)
  frameSum : ℕ
  offsetLen : ℕ
  state : AtState
  busyFlag : ℕ
  parsingFlag : Bool
  atCmdNodeCnt : UInt8
  nodes : ℕ

/-- What goes wrong in a call: the head of an empty command list is used, a buffer is left, or the
call does not return. -/
inductive Fault
  | emptyList
  | outOfBounds
  | diverges
  deriving DecidableEq

/-- What happens to a command: it is queued, its text or its data is passed to `write_cb`, its retry
counter is decremented. The entry is shown as it stands before. -/
inductive CmdEvent
  | accepted (pos : AtCmdList)
  | sentCmd (pos : AtCmdList)
  | sentData (pos : AtCmdList)
  | retried (pos : AtCmdList)
  deriving DecidableEq

/-- What `handle_frame_cb` is given: the data of an IPD frame, or a signal frame of a length. -/
inductive Frame
  | ipd (payload : List UInt8)
  | signal (len : ℕ)
  deriving DecidableEq

/-- What a call of `HyAtUtilsProcess` returns and shows. -/
structure Report where
  ret : AtState
  frames : List Frame
  events : List CmdEvent
  deriving DecidableEq

/-- Nothing to report: the return value 0. -/
def Report.none : Report := { ret := .idle, frames := [], events := [] }

/-- `FACTOR_LEN`. -/
abbrev factorLen : ℕ := 200

/-- `SSCANF_BUF_LEN`. -/
abbrev sscanfBufLen : ℕ := 8

/-- `FRAME_IPD_LEN_MAX`. -/
abbrev frameIpdLenMax : ℕ := 10

/-- `strlen(SIGNAL_STR_MIN)`. -/
abbrev signalStrMin : ℕ := 16

/-- `strlen(SIGNAL_DATA_LEN_MIX)`. -/
abbrev signalDataLenMix : ℕ := 38

/-- An access within bounds yields its value. -/
def inBounds {α : Type} : Option α → Except Fault α
  | .some a => .ok a
  | .none => .error .outOfBounds

variable {config : AtConfig}

namespace AtUtilsContext

/-! ## The command list -/

/-- `_destroy_cmd_list`: the first entry is removed, or all of them. -/
def destroyCmdList (context : AtUtilsContext config) (allCmd : Bool) : AtUtilsContext config :=
  let cnt := if allCmd then context.writeList.length else min 1 context.writeList.length
  { context with
    atCmdNodeCnt := context.atCmdNodeCnt - UInt8.ofNat cnt
    writeList := context.writeList.drop cnt }

/-- `_destroy_clean`. -/
def destroyClean (context : AtUtilsContext config) : AtUtilsContext config :=
  { context.destroyCmdList true with
    fifo := context.fifo.clear
    bufUnion := none
    sysTick := 0
    frameSum := 0
    offsetLen := 0
    state := .idle
    busyFlag := 0
    parsingFlag := false }

/-- `--pos->at_cmd.retry`. -/
def decRetry (pos : AtCmdList) : AtCmdList :=
  { pos with atCmd := { pos.atCmd with retry := pos.atCmd.retry - 1 } }

/-- `--pos->del_cnt`. -/
def decDelCnt (pos : AtCmdList) : AtCmdList := { pos with delCnt := pos.delCnt - 1 }

/-- `del_cnt` of a new entry: one more than 1 when an OK answers the command and another one its
data. -/
def initialDelCnt (config : AtConfig) (atCmd : AtCmd) : UInt8 :=
  if 0 < atCmd.dataLen ∧ config.isCmdOk ≠ 0 then 2 else 1

/-- `_at_cmd_list_create`, when its allocations succeed. -/
def atCmdListCreate (context : AtUtilsContext config) (atCmd : AtCmd) : AtCmdList :=
  { node := context.nodes
    atCmd := { atCmd with data := atCmd.data.take atCmd.dataLen.toNat }
    delCnt := initialDelCnt config atCmd }

/-! ## Tags -/

/-- The bytes as they stand in a buffer of `FACTOR_LEN` zeros. -/
def padded (bytes : List UInt8) : List UInt8 :=
  bytes ++ List.replicate (factorLen - bytes.length) 0

/-- `_find_frame_tag` with its flag set: the state of the first string that the buffer starts with,
and `offset_len`. -/
def matchTag (buf : List UInt8) (bufLen offsetLen : ℕ) : List AtCatchStr → AtState × ℕ
  | [] => (.idle, 1)
  | catchStr :: rest =>
    let len := catchStr.catchStr.length % 2 ^ 16
    -- two bytes of the string are enough to wait for the others
    if (catchStr.catchStr ++ [0, 0]).take 2 = buf.take 2 ∧ bufLen < len then
      (.readHead, offsetLen)
    else if buf.take len = catchStr.catchStr.take len then
      (AtState.ofCode catchStr.state, len)
    else
      matchTag buf bufLen offsetLen rest

/-- `_find_frame_tag` without its flag: the position `cnt` of the first byte that starts one
of the strings. -/
def scanTag (catchStr : List AtCatchStr) : ℕ → List UInt8 → AtState × ℕ
  | cnt, [] => (.idle, cnt)
  | cnt, b :: bs =>
    if catchStr.any fun c => c.catchStr.headD 0 = b then (.readHead, cnt)
    else scanTag catchStr (cnt + 1) bs

/-- `_find_frame_tag`: its result and `offset_len`. -/
def findFrameTag (context : AtUtilsContext config) (buf : List UInt8) (bufLen : ℕ) (flag : Bool) :
    AtState × ℕ :=
  if flag then matchTag buf bufLen context.offsetLen config.catchStr
  else scanTag config.catchStr 0 (buf.take bufLen)

/-! ## Frames -/

/-- The field that `sscanf(buf, "%*[^,],%[^:]", ...)` stores: none of it when the buffer starts with
a comma or its string has none. The scan stays within the buffer. -/
def scanField (buf : List UInt8) : Except Fault (List UInt8) :=
  match buf.dropWhile fun c => c ≠ 44 ∧ c ≠ 0 with
  | [] => .error .outOfBounds
  | c :: rest =>
    if buf.head? = some 44 ∨ c = 0 then .ok []
    else if rest.all fun c => c ≠ 58 ∧ c ≠ 0 then .error .outOfBounds
    else .ok (rest.takeWhile fun c => c ≠ 58 ∧ c ≠ 0)

/-- `atoi` of a string of digits. -/
def atoi (digits : List UInt8) : ℕ := digits.foldl (fun n c => 10 * n + (c.toNat - 48)) 0

/-- `_get_ipd_data_len`: its result, and `*index`. A field longer than `sscanf_buf` leaves it. -/
def getIpdDataLen (buf : List UInt8) (len : ℕ) : Except Fault (ℕ × ℕ) :=
  if 8 ≤ len then do
    let field ← scanField buf
    -- the terminating NUL has to fit too
    if sscanfBufLen ≤ field.length then .error .outOfBounds
    else
      let index := if field.all fun c => 48 ≤ c ∧ c ≤ 57 then atoi field % 2 ^ 16 else 0
      .ok (6 + field.length, index)
  else .ok (0, 0)

/-- `_handle_ipd_data`: whether it returns `ERR_OK`. A copy of a negative length leaves the
buffer. -/
def handleIpdData (context : AtUtilsContext config) (buf : List UInt8) (len : ℕ) :
    Except Fault (AtUtilsContext config × Bool) :=
  match context.bufUnion with
  | none => do
    let (ipdFormatLen, dataLen) ← getIpdDataLen buf len
    -- a header that is no header resets the framework
    if frameIpdLenMax ≤ ipdFormatLen ∨ 1024 < dataLen ∨ dataLen = 0 then
      .ok (context.destroyClean, false)
    else if dataLen + ipdFormatLen ≤ len then do
      let union ← inBounds (Region.memcpy (List.replicate dataLen 0) 0 buf ipdFormatLen dataLen)
      .ok ({ context with bufUnion := some union, offsetLen := ipdFormatLen + dataLen }, true)
    else if len < ipdFormatLen then .error .outOfBounds
    else do
      -- the loop goes on for the rest of the frame
      let cnt := len - ipdFormatLen
      let union ← inBounds (Region.memcpy (List.replicate dataLen 0) 0 buf ipdFormatLen cnt)
      .ok ({ context with
        bufUnion := some union
        frameSum := context.frameSum + cnt
        offsetLen := len
        parsingFlag := true }, false)
  | some union => do
    let union ← inBounds (Region.memcpy union context.frameSum buf 0 len)
    let context := { context with
      bufUnion := some union
      frameSum := context.frameSum + len
      offsetLen := len }
    if context.frameSum = union.length then .ok (context, true)
    else .ok ({ context with parsingFlag := true }, false)

/-- `_get_signal_str`, from the count `ret` on. -/
def getSignalStr : ℕ → List UInt8 → Except Fault ℕ
  | _, [] => .error .outOfBounds
  | ret, b :: bs =>
    if b = 0 then .ok 0
    -- the byte after an 'O' is read whether or not it is in the buffer
    else if b = 79 ∧ bs = [] then .error .outOfBounds
    else if b = 79 ∧ bs.head? = some 75 then .ok ret
    else getSignalStr (ret + 1) bs

/-- `_handle_signal_csq` and `_handle_signal_cwjap_def`, for their least lengths: the length of the
signal, none when they fail. -/
def handleSignal (strMin : ℕ) (buf : List UInt8) (len : ℕ) : Except Fault (Option ℕ) :=
  if len < strMin then .ok none
  else do
    let ret ← getSignalStr 0 buf
    .ok (if ret = 0 then none else some ret)

/-- `_HANDLE_FRAME_CB`: the buffer is handed over and destroyed. -/
def handleFrame (config : AtConfig) (frame : Frame) (out : Report) : Report :=
  if config.handleFrameCb then { out with frames := out.frames ++ [frame] } else out

/-! ## The read side -/

/-- `AT_STATE_READ_HEAD`: the state that the tag at the front of the fifo leads to, `offset_len`,
and whether the fifo moves on. A '>' all by itself is the prompt for data. -/
def readTag (context : AtUtilsContext config) (buf : List UInt8) (len : ℕ) : AtState × ℕ × Bool :=
  let (state, offsetLen) := context.findFrameTag buf len true
  if state = .idle ∧ offsetLen ≠ 0 then
    if context.fifo.items.length = 1 ∧ buf.head? = some 62 then (.readSend, offsetLen, false)
    else (state, offsetLen, true)
  else (state, offsetLen, false)

/-- `AT_STATE_READ_ERROR` and `AT_STATE_READ_FAILD`. -/
def readFault (context : AtUtilsContext config) (out : Report) :
    Except Fault (AtUtilsContext config × Report) :=
  match context.writeList with
  | [] => .error .emptyList
  | pos :: rest =>
    let context' := { context with
      fifo := context.fifo.clear
      writeList := decRetry pos :: rest
      state := .write }
    let events := out.events ++ [.retried pos]
    -- the command is removed here, unlike after a timeout
    if pos.atCmd.retry - 1 = 0 then
      .ok (context'.destroyCmdList false, { out with ret := .readClosed, events := events })
    else .ok (context', { out with ret := context.state, events := events })

/-- `AT_STATE_READ_OK` and `AT_STATE_READ_CONNECT_OK`. -/
def readAnswer (context : AtUtilsContext config) (out : Report) :
    Except Fault (AtUtilsContext config × Report) :=
  match context.writeList with
  | [] => .error .emptyList
  | pos :: rest =>
    -- before the data are sent the OK that answers their command leaves the flag
    let context' := { context with
      busyFlag := if context.busyFlag = 2 ∨ pos.atCmd.dataLen = 0 then 0 else context.busyFlag
      writeList := decDelCnt pos :: rest
      state := .idle }
    let context' := if pos.delCnt - 1 = 0 then context'.destroyCmdList false else context'
    .ok (context', { out with ret := context.state })

/-- `AT_STATE_READ_IPD_DATA`. -/
def readIpd (context : AtUtilsContext config) (buf : List UInt8) (len : ℕ) (out : Report) :
    Except Fault (AtUtilsContext config × Report) := do
  let (context, ok) ← context.handleIpdData buf len
  if ok then
    .ok ({ context with frameSum := 0, parsingFlag := false, state := .idle, bufUnion := none },
      handleFrame config (.ipd (context.bufUnion.getD [])) out)
  else .ok (context, out)

/-- `AT_STATE_READ_SIGNAL_CSQ` and `AT_STATE_READ_SIGNAL_CWJAP_DEF`, and whether the fifo moves
on. -/
def readSignal (context : AtUtilsContext config) (strMin : ℕ) (buf : List UInt8) (len : ℕ)
    (out : Report) : Except Fault (AtUtilsContext config × Report × Bool) := do
  match ← handleSignal strMin buf len with
  | none => .ok (context, out, false)
  | some ret =>
    .ok ({ context with offsetLen := ret, state := .idle, bufUnion := none },
      handleFrame config (.signal ret) out, true)

/-- The `switch` of `_read_handle` over the `len` bytes peeked into `buf`, and `update_flag`. -/
def readSwitch (context : AtUtilsContext config) (buf : List UInt8) (len : ℕ) (out : Report) :
    Except Fault (AtUtilsContext config × Report × Bool) :=
  match context.state with
  | .idle | .read =>
    let (state, offsetLen) := context.findFrameTag buf len false
    .ok ({ context with state, offsetLen }, out, decide (0 < offsetLen))
  | .readHead =>
    let (state, offsetLen, update) := context.readTag buf len
    .ok ({ context with state, offsetLen }, out, update)
  | .readReady => .ok ({ context with state := .idle }, { out with ret := .readReady }, true)
  | .readBusyS => .ok ({ context with state := .read }, out, true)
  | .readClosed =>
    .ok ({ context with parsingFlag := false }, { out with ret := .readClosed }, true)
  | .readError | .readFaild => do
    let (context, out) ← context.readFault out
    .ok (context, out, false)
  | .readConnectOk | .readOk => do
    let (context, out) ← context.readAnswer out
    .ok (context, out, true)
  | .readSend => .ok ({ context with state := .writeData }, out, true)
  | .readIpdData => do
    let (context, out) ← context.readIpd buf len out
    .ok (context, out, decide (0 < context.offsetLen))
  | .readSignalCsq => context.readSignal signalStrMin buf len out
  | .readSignalCwjapDef => context.readSignal signalDataLenMix buf len out
  | _ => .ok (context, out, false)

/-- The fifo moves on by `offset_len`, when `update_flag` is set. -/
def updateOut (context : AtUtilsContext config) (update : Bool) : AtUtilsContext config :=
  if update then { context with fifo := context.fifo.get context.offsetLen, offsetLen := 0 }
  else context

/-- A frame that was interrupted is taken up again, whatever the state. -/
def resume (context : AtUtilsContext config) : AtUtilsContext config :=
  if context.parsingFlag then { context with state := .readIpdData } else context

/-- How many bytes `_read_handle` peeks at most: no more than the buffer of a frame lacks. -/
def factor (context : AtUtilsContext config) : ℕ :=
  match context.bufUnion with
  | none => factorLen
  | some union => min factorLen (union.length - context.frameSum)

/-- The bytes `_read_handle` peeks. -/
def peek (context : AtUtilsContext config) : List UInt8 := context.fifo.items.take context.factor

/-- A pass of the loop of `_read_handle` over the bytes it peeks. -/
def readPass (context : AtUtilsContext config) (out : Report) :
    Except Fault (AtUtilsContext config × Report) := do
  let bytes := context.peek
  let (context, out, update) ← context.resume.readSwitch (padded bytes) bytes.length out
  .ok (context.updateOut update, out)

/-- The loop of `_read_handle`: it goes on while a frame is being read and bytes are left. -/
def readLoop : ℕ → AtUtilsContext config → Report → Except Fault (AtUtilsContext config × Report)
  | 0, _, _ => .error .diverges
  | fuel + 1, context, out =>
    if context.peek = [] then .ok ({ context with state := .idle }, out)
    else do
      let (context, out) ← context.readPass out
      if context.parsingFlag then readLoop fuel context out else .ok (context, out)

/-- `_read_handle`: each pass but the last takes bytes from the fifo. -/
def readHandle (context : AtUtilsContext config) : Except Fault (AtUtilsContext config × Report) :=
  readLoop (context.fifo.items.length + 1) context Report.none

/-! ## The write side -/

/-- `_write_handle`, at a tick. -/
def writeHandle (context : AtUtilsContext config) (tick : UInt32) :
    Except Fault (AtUtilsContext config × Report) :=
  match context.state with
  | .write => .ok ({ context with state := .writeCmd }, Report.none)
  | .writeCmd =>
    if config.writeCb then
      match context.writeList with
      | [] => .error .emptyList
      | pos :: _ =>
        .ok ({ context with sysTick := tick, state := .writeCmdWait, busyFlag := 1 },
          { Report.none with events := [.sentCmd pos] })
    else .ok ({ context with state := .writeCmdWait, busyFlag := 1 }, Report.none)
  | .writeCmdWait =>
    -- `sys_tick` stays, so that the wait counts towards `wait_time`
    .ok (if 10 < tick - context.sysTick then { context with state := .read } else context,
      Report.none)
  | .writeData =>
    if config.writeCb then
      match context.writeList with
      | [] => .error .emptyList
      | pos :: _ =>
        .ok ({ context with sysTick := tick, busyFlag := 2, state := .read },
          { Report.none with events := [.sentData pos] })
    else .ok ({ context with state := .read }, Report.none)
  | _ => .ok (context, Report.none)

/-- Whether the answer to `pos` is overdue at a tick. -/
def timedOut (context : AtUtilsContext config) (pos : AtCmdList) (tick : UInt32) : Bool :=
  pos.atCmd.waitTime.toUInt32 < tick - context.sysTick

/-- `HyAtUtilsProcess` in `AT_STATE_IDLE`, when the clock is read at most at `tick` and then at
`tick'`. -/
def idleHandle (context : AtUtilsContext config) (tick tick' : UInt32) :
    AtUtilsContext config × Report :=
  if 0 < context.fifo.items.length then ({ context with state := .read }, Report.none)
  else
    match context.writeList with
    | [] => (context, Report.none)
    | pos :: rest =>
      if context.timedOut pos tick then
        let context := { context with
          sysTick := tick'
          busyFlag := 0
          writeList := decRetry pos :: rest }
        -- the command stays in the list, and the state is idle
        if pos.atCmd.retry - 1 = 0 then
          (context, { ret := .readClosed, frames := [], events := [.retried pos] })
        else ({ context with state := .write }, { Report.none with events := [.retried pos] })
      else if context.busyFlag = 0 then ({ context with state := .write }, Report.none)
      else (context, Report.none)

end AtUtilsContext

open AtUtilsContext

/-! ## The interface -/

/-- `HyAtUtilsCreate`. -/
def hyAtUtilsCreate (config : AtConfig) : AtUtilsContext config :=
  { writeList := []
    fifo := BoundedQueue.empty UInt8 config.fifoLen
    sysTick := 0
    bufUnion := none
    frameSum := 0
    offsetLen := 0
    state := .idle
    busyFlag := 0
    parsingFlag := false
    atCmdNodeCnt := 0
    nodes := 0 }

/-- `HyAtUtilsPutData`: how many bytes it stores. -/
def hyAtUtilsPutData (context : AtUtilsContext config) (buf : List UInt8) :
    AtUtilsContext config × ℕ :=
  ({ context with fifo := context.fifo.put buf }, context.fifo.room buf.length)

/-- `HyAtUtilsWriteCmd`, which may find no memory: the entry it queues, none when it refuses. -/
def hyAtUtilsWriteCmd (context : AtUtilsContext config) (atCmd : AtCmd) (memory : Bool) :
    AtUtilsContext config × Option AtCmdList :=
  if config.atCmdNum ≠ 0 ∧ config.atCmdNum ≤ context.atCmdNodeCnt then (context, none)
  else if memory then
    let pos := context.atCmdListCreate atCmd
    ({ context with
      writeList := context.writeList ++ [pos]
      atCmdNodeCnt := context.atCmdNodeCnt + 1
      nodes := context.nodes + 1 }, some pos)
  else (context, none)

/-- `HyAtUtilsProcess`. -/
def hyAtUtilsProcess (context : AtUtilsContext config) (tick tick' : UInt32) :
    Except Fault (AtUtilsContext config × Report) :=
  match context.state with
  | .idle => .ok (context.idleHandle tick tick')
  | .write | .writeCmd | .writeCmdWait | .writeData | .writeMax => context.writeHandle tick
  | .unknown => .ok (context, Report.none)
  | _ => context.readHandle

/-- `HyAtUtilsClean`. -/
def hyAtUtilsClean (context : AtUtilsContext config) : AtUtilsContext config := context.destroyClean

/-- The calls of the framework; a call of `HyAtUtilsProcess` reads the clock at most twice. -/
inductive AtOp
  | putData (buf : List UInt8)
  | writeCmd (atCmd : AtCmd) (memory : Bool)
  | process (tick tick' : UInt32)
  | clean
  deriving DecidableEq

/-- What a call returns and shows. -/
inductive AtOut
  | putData (len : ℕ)
  | writeCmd (pos : Option AtCmdList)
  | process (report : Report)
  | clean
  deriving DecidableEq

/-- What a call does to the commands. -/
def AtOut.events : AtOut → List CmdEvent
  | .writeCmd (some pos) => [.accepted pos]
  | .process report => report.events
  | _ => []

/-- What a call hands to `handle_frame_cb`. -/
def AtOut.frames : AtOut → List Frame
  | .process report => report.frames
  | _ => []

/-- The framework as a component. -/
def atStep (context : AtUtilsContext config) : AtOp → Except Fault (AtUtilsContext config × AtOut)
  | .putData buf =>
    let (context, len) := hyAtUtilsPutData context buf
    .ok (context, .putData len)
  | .writeCmd atCmd memory =>
    let (context, pos) := hyAtUtilsWriteCmd context atCmd memory
    .ok (context, .writeCmd pos)
  | .process tick tick' => do
    let (context, report) ← hyAtUtilsProcess context tick tick'
    .ok (context, .process report)
  | .clean => .ok (hyAtUtilsClean context, .clean)

end HyUtils.AtUtils
