import HyUtils.AtUtils.Model
import HyUtils.Foundation.Run

/-!
# What a step of the AT framework does to its commands

The command list, the busy flag and the state of the framework, seen through one relation: each call
that completes is one of a few kinds of step, and the bytes in the fifo decide which. The facts
about commands are derived from this relation alone.

## Main definitions

* `CmdSide`, `AtUtilsContext.cmdSide`: the part of a context that is about commands
* `AtState.usesHead`: the states in which a command is being handled
* `AtUtilsContext.headState`: the state that the tag at the front of the fifo leads to
* `CmdStep`: the kinds of step
* `atNext`: a call that does not fault, as a step of a run

## Main results

* `cmdStep_of_atStep`: a call that completes is one of these steps
* `atStep_eq_error`: a call always returns, and uses the head of an empty list only in the states in
  which a command is being handled
* `eachStep_of_cmdStep`: an invariant of the commands and the log, carried along a run
-/

namespace HyUtils.AtUtils

open Runs

/-- The part of a context that is about commands. -/
@[ext] structure CmdSide where
  writeList : List AtCmdList
  atCmdNodeCnt : UInt8
  nodes : ℕ
  state : AtState
  busyFlag : ℕ

/-- No command is left. -/
def CmdSide.cleaned (side : CmdSide) : CmdSide :=
  { side with
    writeList := []
    atCmdNodeCnt := side.atCmdNodeCnt - UInt8.ofNat side.writeList.length
    state := .idle
    busyFlag := 0 }

/-- Whether the head of the list is about to be sent. -/
def CmdSide.Sends (side : CmdSide) : Prop := side.state = .write ∨ side.state = .writeCmd

/-- The state that `HyAtUtilsProcess` returns. -/
def AtOut.ret : AtOut → AtState
  | .process report => report.ret
  | _ => .idle

/-- The states in which a command is being handled: the head of the command list is used in them, or
in the states they lead to, and none of them tests whether there is one. -/
def AtState.usesHead : AtState → Bool
  | .readError | .readFaild | .readOk | .readConnectOk | .readSend => true
  | .write | .writeCmd | .writeData => true
  | _ => false

variable {config : AtConfig} {context context' : AtUtilsContext config} {op : AtOp} {out : AtOut}

namespace AtUtilsContext

/-- The part of a context that is about commands. -/
def cmdSide (context : AtUtilsContext config) : CmdSide :=
  { writeList := context.writeList
    atCmdNodeCnt := context.atCmdNodeCnt
    nodes := context.nodes
    state := context.state
    busyFlag := context.busyFlag }

/-- The state that the tag at the front of the fifo leads to. -/
def headState (context : AtUtilsContext config) : AtState :=
  (context.readTag (padded context.peek) context.peek.length).1

/-- The context once the tag at the front of the fifo has been looked at. -/
def tagged (context : AtUtilsContext config) : AtUtilsContext config :=
  { context with
    state := context.headState
    offsetLen := (context.readTag (padded context.peek) context.peek.length).2.1 }

/-- The fifo stays at a tag that is recognised. -/
theorem readTag_update (h : context.headState ≠ .idle) :
    (context.readTag (padded context.peek) context.peek.length).2.2 = false := by
  unfold headState at h
  unfold readTag at h ⊢
  dsimp only at h ⊢
  split_ifs at h ⊢ with htag
  · rfl
  · exact absurd htag.1 h
  · rfl

@[simp] theorem writeList_cmdSide : context.cmdSide.writeList = context.writeList := rfl

@[simp] theorem cmdSide_updateOut (update : Bool) :
    (context.updateOut update).cmdSide = context.cmdSide := by
  cases update <;> rfl

@[simp] theorem parsingFlag_updateOut (update : Bool) :
    (context.updateOut update).parsingFlag = context.parsingFlag := by
  cases update <;> rfl

theorem cmdSide_destroyClean : context.destroyClean.cmdSide = context.cmdSide.cleaned := by
  simp [destroyClean, destroyCmdList, cmdSide, CmdSide.cleaned]

end AtUtilsContext

open AtUtilsContext

@[simp] theorem events_process (report : Report) : (AtOut.process report).events = report.events :=
  rfl

@[simp] theorem events_none : Report.none.events = [] := rfl

/-- The kinds of step: what a call from `context` shows and what it leaves of the commands. -/
inductive CmdStep (context : AtUtilsContext config) : AtOp → AtOut → CmdSide → Prop
  /-- The commands stay, and no state is entered that touches them. -/
  | calm {op : AtOp} {out : AtOut} {state : AtState} (hevents : out.events = [])
      (hret : out.ret = .readClosed → context.state = .readClosed)
      (hstate : state = context.state ∨ (context.state ≠ .write ∧ context.state ≠ .writeCmd) ∧
        (state = .idle ∨ state = .read ∨ state = .readHead)) :
      CmdStep context op out { context.cmdSide with state := state }
  /-- A command is queued. -/
  | accepts (atCmd : AtCmd)
      (hroom : ¬(config.atCmdNum ≠ 0 ∧ config.atCmdNum ≤ context.atCmdNodeCnt)) :
      CmdStep context (.writeCmd atCmd true) (.writeCmd (some (context.atCmdListCreate atCmd)))
        { context.cmdSide with
          writeList := context.writeList ++ [context.atCmdListCreate atCmd]
          atCmdNodeCnt := context.atCmdNodeCnt + 1
          nodes := context.nodes + 1 }
  /-- All commands are dropped. -/
  | cleans {op : AtOp} {out : AtOut} (hevents : out.events = [])
      (hret : out.ret = .idle) : CmdStep context op out context.cmdSide.cleaned
  /-- A tag is recognised. -/
  | tags {t t' : UInt32} {report : Report} (hstate : context.state = .readHead)
      (hparsing : context.parsingFlag = false) (hpeek : context.peek ≠ [])
      (hreport : report = .none) :
      CmdStep context (.process t t') (.process report)
        { context.cmdSide with state := context.headState }
  /-- The prompt for data is taken. -/
  | prompted {t t' : UInt32} {report : Report} (hstate : context.state = .readSend)
      (hreport : report = .none) :
      CmdStep context (.process t t') (.process report)
        { context.cmdSide with state := .writeData }
  /-- A command is to be written. -/
  | begins {t t' : UInt32} (hstate : context.state = .idle) (hfifo : context.fifo.items = [])
      (hbusy : context.busyFlag = 0) (hlist : context.writeList ≠ []) :
      CmdStep context (.process t t') (.process .none) { context.cmdSide with state := .write }
  /-- The command comes next. -/
  | writes {t t' : UInt32} (hstate : context.state = .write) :
      CmdStep context (.process t t') (.process .none) { context.cmdSide with state := .writeCmd }
  /-- There is no callback to write the command with. -/
  | skips {t t' : UInt32} (hstate : context.state = .writeCmd) (hcb : config.writeCb = false) :
      CmdStep context (.process t t') (.process .none)
        { context.cmdSide with state := .writeCmdWait, busyFlag := 1 }
  /-- The command is written. -/
  | sends {t t' : UInt32} {pos : AtCmdList} {rest : List AtCmdList}
      (hstate : context.state = .writeCmd) (hcb : config.writeCb = true)
      (hlist : context.writeList = pos :: rest) :
      CmdStep context (.process t t') (.process { Report.none with events := [.sentCmd pos] })
        { context.cmdSide with state := .writeCmdWait, busyFlag := 1 }
  /-- Its data are written. -/
  | sendsData {t t' : UInt32} {pos : AtCmdList} {rest : List AtCmdList}
      (hstate : context.state = .writeData) (hcb : config.writeCb = true)
      (hlist : context.writeList = pos :: rest) :
      CmdStep context (.process t t') (.process { Report.none with events := [.sentData pos] })
        { context.cmdSide with state := .read, busyFlag := 2 }
  /-- The answer to the command is overdue. -/
  | timesOut {t t' : UInt32} {report : Report} {pos : AtCmdList} {rest : List AtCmdList}
      (hstate : context.state = .idle) (hfifo : context.fifo.items = [])
      (hlist : context.writeList = pos :: rest) (hlate : context.timedOut pos t)
      (hevents : report.events = [.retried pos])
      (hret : report.ret = .readClosed ↔ pos.atCmd.retry - 1 = 0) :
      CmdStep context (.process t t') (.process report)
        { context.cmdSide with
          writeList := decRetry pos :: rest
          state := if pos.atCmd.retry - 1 = 0 then .idle else .write
          busyFlag := 0 }
  /-- The command has failed. -/
  | fails {t t' : UInt32} {report : Report} {pos : AtCmdList} {rest : List AtCmdList}
      (hstate : context.state = .readError ∨ context.state = .readFaild)
      (hparsing : context.parsingFlag = false) (hpeek : context.peek ≠ [])
      (hlist : context.writeList = pos :: rest) (hevents : report.events = [.retried pos])
      (hret : report.ret = .readClosed ↔ pos.atCmd.retry - 1 = 0) :
      CmdStep context (.process t t') (.process report)
        { context.cmdSide with
          writeList := if pos.atCmd.retry - 1 = 0 then rest else decRetry pos :: rest
          atCmdNodeCnt :=
            if pos.atCmd.retry - 1 = 0 then context.atCmdNodeCnt - 1 else context.atCmdNodeCnt
          state := .write }
  /-- An OK is counted. -/
  | answers {t t' : UInt32} {report : Report} {pos : AtCmdList} {rest : List AtCmdList}
      (hstate : context.state = .readOk ∨ context.state = .readConnectOk)
      (hparsing : context.parsingFlag = false) (hpeek : context.peek ≠ [])
      (hlist : context.writeList = pos :: rest) (hevents : report.events = [])
      (hret : report.ret ≠ .readClosed) :
      CmdStep context (.process t t') (.process report)
        { context.cmdSide with
          writeList := if pos.delCnt - 1 = 0 then rest else decDelCnt pos :: rest
          atCmdNodeCnt :=
            if pos.delCnt - 1 = 0 then context.atCmdNodeCnt - 1 else context.atCmdNodeCnt
          state := .idle
          busyFlag :=
            if context.busyFlag = 2 ∨ pos.atCmd.dataLen = 0 then 0 else context.busyFlag }

/-! ## Frames of data -/

namespace AtUtilsContext

theorem inBounds_eq_error {α : Type} {r : Option α} {fault : Fault}
    (h : inBounds r = .error fault) : fault = .outOfBounds := by
  cases r with
  | none => simpa [inBounds] using h.symm
  | some a => simp [inBounds] at h

theorem getIpdDataLen_eq_error {buf : List UInt8} {len : ℕ} {fault : Fault}
    (h : getIpdDataLen buf len = .error fault) : fault = .outOfBounds := by
  unfold getIpdDataLen at h
  split_ifs at h
  rcases bind_eq_error.mp h with hscan | ⟨field, -, hfield⟩
  · unfold scanField at hscan
    split at hscan
    · simpa using hscan.symm
    · split_ifs at hscan
      simpa using hscan.symm
  · split_ifs at hfield
    simpa using hfield.symm

theorem handleIpdData_eq_error {buf : List UInt8} {len : ℕ} {fault : Fault}
    (h : context.handleIpdData buf len = .error fault) : fault = .outOfBounds := by
  unfold handleIpdData at h
  split at h
  · rcases bind_eq_error.mp h with hlen | ⟨⟨fmt, dataLen⟩, -, h⟩
    · exact getIpdDataLen_eq_error hlen
    · dsimp only at h
      split_ifs at h
      · rcases bind_eq_error.mp h with hcopy | ⟨union, -, h⟩
        · exact inBounds_eq_error hcopy
        · exact nomatch h
      · simpa using h.symm
      · rcases bind_eq_error.mp h with hcopy | ⟨union, -, h⟩
        · exact inBounds_eq_error hcopy
        · exact nomatch h
  · rcases bind_eq_error.mp h with hcopy | ⟨union, -, h⟩
    · exact inBounds_eq_error hcopy
    · dsimp only at h
      split_ifs at h

/-- A piece of a frame completes the frame, is kept until the next piece, or is taken for garbage,
and then everything is dropped. -/
theorem handleIpdData_cases {buf : List UInt8} {len : ℕ} {ok : Bool}
    (h : context.handleIpdData buf len = .ok (context', ok)) :
    (ok = false ∧ context' = context.destroyClean) ∨
      context'.cmdSide = context.cmdSide ∧ (ok = false → context'.parsingFlag = true ∧
        context'.offsetLen = len ∧ context'.fifo = context.fifo) := by
  unfold handleIpdData at h
  split at h
  · obtain ⟨⟨fmt, dataLen⟩, -, h⟩ := bind_eq_ok.mp h
    dsimp only at h
    split_ifs at h
    · cases h
      exact .inl ⟨rfl, rfl⟩
    · obtain ⟨union, -, h⟩ := bind_eq_ok.mp h
      cases h
      exact .inr ⟨rfl, fun hok => nomatch hok⟩
    · obtain ⟨union, -, h⟩ := bind_eq_ok.mp h
      cases h
      exact .inr ⟨rfl, fun _ => ⟨rfl, rfl, rfl⟩⟩
  · obtain ⟨union, -, h⟩ := bind_eq_ok.mp h
    dsimp only at h
    split_ifs at h
    · cases h
      exact .inr ⟨rfl, fun hok => nomatch hok⟩
    · cases h
      exact .inr ⟨rfl, fun _ => ⟨rfl, rfl, rfl⟩⟩

theorem handleFrame_events (frame : Frame) (out : Report) :
    (handleFrame config frame out).events = out.events := by
  unfold handleFrame
  split <;> rfl

theorem handleFrame_ret (frame : Frame) (out : Report) :
    (handleFrame config frame out).ret = out.ret := by
  unfold handleFrame
  split <;> rfl

theorem readIpd_eq_error {buf : List UInt8} {len : ℕ} {report : Report} {fault : Fault}
    (h : context.readIpd buf len report = .error fault) : fault = .outOfBounds := by
  unfold readIpd at h
  rcases bind_eq_error.mp h with hdata | ⟨⟨context', ok⟩, -, h⟩
  · exact handleIpdData_eq_error hdata
  · dsimp only at h
    split_ifs at h

theorem readIpd_cases {buf : List UInt8} {len : ℕ} {report report' : Report}
    (h : context.readIpd buf len report = .ok (context', report')) :
    (report'.events = report.events ∧ report'.ret = report.ret) ∧
      (context'.parsingFlag = false ∧ (context'.cmdSide = context.cmdSide.cleaned ∨
          context'.cmdSide = { context.cmdSide with state := .idle }) ∨
        context'.parsingFlag = true ∧ context'.cmdSide = context.cmdSide ∧
          context'.offsetLen = len ∧ context'.fifo = context.fifo) := by
  unfold readIpd at h
  obtain ⟨⟨context₁, ok⟩, hdata, h⟩ := bind_eq_ok.mp h
  rcases handleIpdData_cases hdata with ⟨rfl, rfl⟩ | ⟨hside, hpart⟩
  · cases h
    exact ⟨⟨rfl, rfl⟩, .inl ⟨rfl, .inl cmdSide_destroyClean⟩⟩
  · cases ok with
    | true =>
      cases h
      refine ⟨⟨handleFrame_events _ _, handleFrame_ret _ _⟩, .inl ⟨rfl, .inr ?_⟩⟩
      rw [← hside]
      rfl
    | false =>
      cases h
      obtain ⟨hparsing, hoff, hfifo⟩ := hpart rfl
      exact ⟨⟨rfl, rfl⟩, .inr ⟨hparsing, hside, hoff, hfifo⟩⟩

theorem resume_of_parsing (hparsing : context.parsingFlag = true) :
    context.resume = { context with state := .readIpdData } := if_pos hparsing

theorem resume_of_not_parsing (hparsing : context.parsingFlag = false) :
    context.resume = context := if_neg (by simp [hparsing])

/-- Only the state depends on whether a frame is taken up. -/
theorem exists_resume_eq : ∃ state, context.resume = { context with state := state } := by
  unfold resume
  split
  · exact ⟨.readIpdData, rfl⟩
  · exact ⟨context.state, rfl⟩

/-! ## One pass -/

theorem readHandle_of_peek_nil (hpeek : context.peek = []) :
    context.readHandle = .ok ({ context with state := .idle }, .none) := by
  rw [readHandle, readLoop, if_pos hpeek]

theorem readHandle_of_error {fault : Fault} (hpeek : context.peek ≠ [])
    (h : context.resume.readSwitch (padded context.peek) context.peek.length .none = .error fault) :
    context.readHandle = .error fault := by
  rw [readHandle, readLoop, if_neg hpeek, readPass, h]
  rfl

/-- A pass after which no frame is left unfinished is the last one. -/
theorem readHandle_of_last {report : Report} (hpeek : context.peek ≠ [])
    (h : context.readPass .none = .ok (context', report)) (hdone : context'.parsingFlag = false) :
    context.readHandle = .ok (context', report) := by
  have hdone' : ¬context'.parsingFlag = true := by simp [hdone]
  rw [readHandle, readLoop, if_neg hpeek, h]
  exact if_neg hdone'

theorem readHandle_of_ok {report : Report} {update : Bool} (hpeek : context.peek ≠ [])
    (h : context.resume.readSwitch (padded context.peek) context.peek.length .none =
      .ok (context', report, update)) (hdone : context'.parsingFlag = false) :
    context.readHandle = .ok (context'.updateOut update, report) := by
  refine readHandle_of_last hpeek ?_ (by simpa using hdone)
  rw [readPass, h]
  rfl

/-- After a pass that leaves a frame unfinished the loop goes on. -/
theorem readHandle_of_going {report : Report} (hpeek : context.peek ≠ [])
    (h : context.readPass .none = .ok (context', report)) (hgoing : context'.parsingFlag = true) :
    context.readHandle = readLoop context.fifo.items.length context' report := by
  rw [readHandle, readLoop, if_neg hpeek, h]
  exact if_pos hgoing

/-- What a pass does when it takes up a frame. -/
theorem readPass_ipd {report report' : Report} (hpeek : context.peek ≠ [])
    (hstate : context.resume.state = .readIpdData)
    (h : context.readPass report = .ok (context', report')) :
    (report'.events = report.events ∧ report'.ret = report.ret) ∧
      (context'.parsingFlag = false ∧ (context'.cmdSide = context.cmdSide.cleaned ∨
          context'.cmdSide = { context.cmdSide with state := .idle }) ∨
        context'.parsingFlag = true ∧
          context'.cmdSide = { context.cmdSide with state := .readIpdData } ∧
          context'.fifo = context.fifo.get context.peek.length) := by
  obtain ⟨⟨context₁, report₁, update⟩, hswitch, h⟩ := bind_eq_ok.mp h
  obtain ⟨state, hresume⟩ := @exists_resume_eq _ context
  rw [hresume] at hstate hswitch
  obtain rfl : state = .readIpdData := hstate
  obtain ⟨⟨context₂, report₂⟩, hipd, hret⟩ := bind_eq_ok.mp hswitch
  cases hret
  cases h
  obtain ⟨hreport, hcases⟩ := readIpd_cases hipd
  rw [parsingFlag_updateOut, cmdSide_updateOut]
  refine ⟨hreport, hcases.imp id ?_⟩
  rintro ⟨hparsing, hside, hoff, hfifo⟩
  refine ⟨hparsing, hside, ?_⟩
  have hpos : 0 < context₁.offsetLen := hoff ▸ List.length_pos_iff.mpr hpeek
  rw [decide_eq_true hpos, ← hoff, ← hfifo]
  rfl

/-- What the loop does while a frame is being read. -/
theorem readLoop_parsing {fuel : ℕ} {report report' : Report}
    (hparsing : context.parsingFlag = true)
    (h : readLoop fuel context report = .ok (context', report')) :
    (report'.events = report.events ∧ report'.ret = report.ret) ∧
      (context'.cmdSide = context.cmdSide.cleaned ∨
        context'.cmdSide = { context.cmdSide with state := .idle }) := by
  induction fuel generalizing context report with
  | zero => exact nomatch h
  | succ fuel ih =>
    unfold readLoop at h
    split_ifs at h with hpeek
    · cases h
      exact ⟨⟨rfl, rfl⟩, .inr rfl⟩
    · obtain ⟨⟨context₁, report₁⟩, hpass, h⟩ := bind_eq_ok.mp h
      have hstate : context.resume.state = .readIpdData := by rw [resume_of_parsing hparsing]
      obtain ⟨⟨hevents, hret⟩, hcases⟩ := readPass_ipd hpeek hstate hpass
      rcases hcases with ⟨hdone, hside⟩ | ⟨hgoing, hside, -⟩
      · dsimp only at h
        rw [if_neg (by simp [hdone])] at h
        cases h
        exact ⟨⟨hevents, hret⟩, hside⟩
      · -- a frame is still being read, so the loop goes on
        dsimp only at h
        rw [if_pos hgoing] at h
        obtain ⟨⟨hevents', hret'⟩, hcases'⟩ := ih hgoing h
        rw [hside] at hcases'
        exact ⟨⟨hevents'.trans hevents, hret'.trans hret⟩, hcases'⟩

end AtUtilsContext

/-! ## Answers and tags -/

theorem scanTag_fst (catchStr : List AtCatchStr) (cnt : ℕ) (bytes : List UInt8) :
    (scanTag catchStr cnt bytes).1 = .idle ∨ (scanTag catchStr cnt bytes).1 = .readHead := by
  induction bytes generalizing cnt with
  | nil => exact .inl rfl
  | cons b bytes ih =>
    unfold scanTag
    split
    · exact .inr rfl
    · exact ih (cnt + 1)

theorem findFrameTag_scan (buf : List UInt8) (bufLen : ℕ) :
    (context.findFrameTag buf bufLen false).1 = .idle ∨
      (context.findFrameTag buf bufLen false).1 = .read ∨
        (context.findFrameTag buf bufLen false).1 = .readHead :=
  (scanTag_fst config.catchStr 0 (buf.take bufLen)).imp id .inr

theorem readFault_step {t t' : UInt32} {report : Report}
    (hstate : context.state = .readError ∨ context.state = .readFaild)
    (hparsing : context.parsingFlag = false) (hpeek : context.peek ≠ [])
    (h : context.readFault .none = .ok (context', report)) :
    context'.parsingFlag = false ∧
      CmdStep context (.process t t') (.process report) context'.cmdSide := by
  have hne : context.state ≠ .readClosed := by rcases hstate with h | h <;> simp [h]
  unfold readFault at h
  split at h
  case h_1 => exact nomatch h
  case h_2 pos rest hlist =>
    dsimp only at h
    split_ifs at h with hlast
    · cases h
      have hstep : CmdStep context (.process t t')
          (.process { ret := .readClosed, frames := [], events := [.retried pos] }) _ :=
        .fails hstate hparsing hpeek hlist rfl (by simp [hlast])
      rw [if_pos hlast, if_pos hlast] at hstep
      exact ⟨hparsing, hstep⟩
    · cases h
      have hstep : CmdStep context (.process t t')
          (.process { ret := context.state, frames := [], events := [.retried pos] }) _ :=
        .fails hstate hparsing hpeek hlist rfl (by simp [hlast, hne])
      rw [if_neg hlast, if_neg hlast] at hstep
      exact ⟨hparsing, hstep⟩

theorem readAnswer_step {t t' : UInt32} {report : Report}
    (hstate : context.state = .readOk ∨ context.state = .readConnectOk)
    (hparsing : context.parsingFlag = false) (hpeek : context.peek ≠ [])
    (h : context.readAnswer .none = .ok (context', report)) :
    context'.parsingFlag = false ∧
      CmdStep context (.process t t') (.process report) context'.cmdSide := by
  have hne : context.state ≠ .readClosed := by rcases hstate with h | h <;> simp [h]
  unfold readAnswer at h
  split at h
  case h_1 => exact nomatch h
  case h_2 pos rest hlist =>
    cases h
    have hstep : CmdStep context (.process t t')
        (.process { Report.none with ret := context.state }) _ :=
      .answers hstate hparsing hpeek hlist rfl hne
    by_cases hlast : pos.delCnt - 1 = 0
    · rw [if_pos hlast, if_pos hlast] at hstep
      rw [if_pos hlast]
      exact ⟨hparsing, hstep⟩
    · rw [if_neg hlast, if_neg hlast] at hstep
      rw [if_neg hlast]
      exact ⟨hparsing, hstep⟩

/-- A step of the read side outside a frame is one of the kinds of step. -/
theorem cmdStep_of_readSwitch {t t' : UInt32} {report : Report} {update : Bool}
    (hparsing : context.parsingFlag = false) (hpeek : context.peek ≠ [])
    (hipd : context.state ≠ .readIpdData)
    (h : context.readSwitch (padded context.peek) context.peek.length .none =
      .ok (context', report, update)) :
    context'.parsingFlag = false ∧
      CmdStep context (.process t t') (.process report) context'.cmdSide := by
  cases hstate : context.state
  case readIpdData => exact absurd hstate hipd
  case idle | read =>
    simp only [readSwitch, hstate] at h
    cases h
    refine ⟨hparsing, .calm rfl (fun hret => nomatch hret) (.inr ⟨by simp [hstate], ?_⟩)⟩
    exact findFrameTag_scan _ _
  case readHead =>
    simp only [readSwitch, hstate] at h
    cases h
    exact ⟨hparsing, .tags hstate hparsing hpeek rfl⟩
  case readReady =>
    simp only [readSwitch, hstate] at h
    cases h
    exact ⟨hparsing, .calm rfl (fun hret => nomatch hret) (.inr ⟨by simp [hstate], .inl rfl⟩)⟩
  case readBusyS =>
    simp only [readSwitch, hstate] at h
    cases h
    exact ⟨hparsing, .calm rfl (fun hret => nomatch hret)
      (.inr ⟨by simp [hstate], .inr (.inl rfl)⟩)⟩
  case readClosed =>
    -- the one state that reports a closed connection without a command
    simp only [readSwitch, hstate] at h
    cases h
    exact ⟨rfl, .calm rfl (fun _ => hstate) (.inl hstate.symm)⟩
  case readError | readFaild =>
    simp only [readSwitch, hstate] at h
    obtain ⟨⟨context₁, report₁⟩, hfault, h⟩ := bind_eq_ok.mp h
    cases h
    exact readFault_step (by simp [hstate]) hparsing hpeek hfault
  case readOk | readConnectOk =>
    simp only [readSwitch, hstate] at h
    obtain ⟨⟨context₁, report₁⟩, hanswer, h⟩ := bind_eq_ok.mp h
    cases h
    exact readAnswer_step (by simp [hstate]) hparsing hpeek hanswer
  case readSend =>
    simp only [readSwitch, hstate] at h
    cases h
    exact ⟨hparsing, .prompted hstate rfl⟩
  case readSignalCsq | readSignalCwjapDef =>
    simp only [readSwitch, hstate] at h
    obtain ⟨_ | ret, -, h⟩ := bind_eq_ok.mp h
    · cases h
      exact ⟨hparsing, .calm rfl (fun hret => nomatch hret) (.inl rfl)⟩
    · -- what is handed over is no command
      cases h
      refine ⟨hparsing, .calm (handleFrame_events _ _) ?_ (.inr ⟨by simp [hstate], .inl rfl⟩)⟩
      intro hret
      exact nomatch (handleFrame_ret _ _).symm.trans hret
  all_goals
    simp only [readSwitch, hstate] at h
    cases h
    exact ⟨hparsing, .calm rfl (fun hret => nomatch hret) (.inl rfl)⟩

/-! ## Calls -/

/-- A frame of data leaves the commands alone, or drops them all. -/
theorem readHandle_ipd {report : Report} (hpeek : context.peek ≠ [])
    (hipd : context.resume.state = .readIpdData)
    (h : context.readHandle = .ok (context', report)) :
    (report.events = [] ∧ report.ret = .idle) ∧
      (context'.cmdSide = context.cmdSide.cleaned ∨
        context'.cmdSide = { context.cmdSide with state := .idle }) := by
  unfold readHandle readLoop at h
  rw [if_neg hpeek] at h
  obtain ⟨⟨context₁, report₁⟩, hpass, h⟩ := bind_eq_ok.mp h
  obtain ⟨⟨hevents, hret⟩, hcases⟩ := readPass_ipd hpeek hipd hpass
  dsimp only at h
  rcases hcases with ⟨hdone, hside⟩ | ⟨hgoing, hside, -⟩
  · rw [if_neg (by simp [hdone])] at h
    cases h
    exact ⟨⟨hevents, hret⟩, hside⟩
  · rw [if_pos hgoing] at h
    obtain ⟨⟨hevents', hret'⟩, hcases'⟩ := readLoop_parsing hgoing h
    rw [hside] at hcases'
    exact ⟨⟨hevents'.trans hevents, hret'.trans hret⟩, hcases'⟩

theorem not_parsing_of_resume (hipd : context.resume.state ≠ .readIpdData) :
    context.parsingFlag = false := by
  by_contra hparsing
  exact hipd (by rw [resume_of_parsing (by simpa using hparsing)])

theorem cmdStep_of_readHandle {t t' : UInt32} {report : Report}
    (hstate : context.state ≠ .write ∧ context.state ≠ .writeCmd)
    (h : context.readHandle = .ok (context', report)) :
    CmdStep context (.process t t') (.process report) context'.cmdSide := by
  by_cases hpeek : context.peek = []
  · -- nothing to read
    unfold readHandle readLoop at h
    rw [if_pos hpeek] at h
    cases h
    exact .calm rfl (fun hret => nomatch hret) (.inr ⟨hstate, .inl rfl⟩)
  by_cases hipd : context.resume.state = .readIpdData
  · obtain ⟨⟨hevents, hret⟩, hside | hside⟩ := readHandle_ipd hpeek hipd h
    · rw [hside]
      exact .cleans hevents hret
    · rw [hside]
      exact .calm hevents (fun hclosed => nomatch hret.symm.trans hclosed)
        (.inr ⟨hstate, .inl rfl⟩)
  · have hparsing := not_parsing_of_resume hipd
    unfold readHandle readLoop at h
    rw [if_neg hpeek] at h
    obtain ⟨⟨context₁, report₁⟩, hpass, h⟩ := bind_eq_ok.mp h
    obtain ⟨⟨context₂, report₂, update⟩, hswitch, hret⟩ := bind_eq_ok.mp hpass
    rw [resume_of_not_parsing hparsing] at hipd hswitch
    cases hret
    obtain ⟨hdone, hstep⟩ : _ ∧ CmdStep context (.process t t') _ _ :=
      cmdStep_of_readSwitch hparsing hpeek hipd hswitch
    -- outside a frame there is one pass
    dsimp only at h
    rw [if_neg (by simp [hdone])] at h
    obtain ⟨rfl, rfl⟩ := Prod.mk.inj (Except.ok.inj h)
    rwa [cmdSide_updateOut]

theorem cmdStep_of_writeHandle {t t' : UInt32} {report : Report}
    (h : context.writeHandle t = .ok (context', report)) :
    CmdStep context (.process t t') (.process report) context'.cmdSide := by
  cases hstate : context.state
  case write =>
    simp only [writeHandle, hstate] at h
    cases h
    exact .writes hstate
  case writeCmd =>
    simp only [writeHandle, hstate] at h
    by_cases hcb : config.writeCb = true
    · rw [if_pos hcb] at h
      split at h
      case h_1 => exact nomatch h
      case h_2 pos rest hlist =>
        cases h
        exact .sends hstate hcb hlist
    · rw [if_neg hcb] at h
      cases h
      exact .skips hstate (by simpa using hcb)
  case writeCmdWait =>
    simp only [writeHandle, hstate] at h
    split_ifs at h
    · cases h
      exact .calm rfl (fun hret => nomatch hret)
        (.inr ⟨by simp [hstate], .inr (.inl rfl)⟩)
    · cases h
      exact .calm rfl (fun hret => nomatch hret) (.inl rfl)
  case writeData =>
    simp only [writeHandle, hstate] at h
    by_cases hcb : config.writeCb = true
    · rw [if_pos hcb] at h
      split at h
      case h_1 => exact nomatch h
      case h_2 pos rest hlist =>
        cases h
        exact .sendsData hstate hcb hlist
    · rw [if_neg hcb] at h
      cases h
      exact .calm rfl (fun hret => nomatch hret) (.inr ⟨by simp [hstate], .inr (.inl rfl)⟩)
  all_goals
    simp only [writeHandle, hstate] at h
    cases h
    exact .calm rfl (fun hret => nomatch hret) (.inl rfl)

theorem cmdStep_of_idleHandle {t t' : UInt32} (hstate : context.state = .idle) :
    CmdStep context (.process t t') (.process (context.idleHandle t t').2)
      (context.idleHandle t t').1.cmdSide := by
  have hcalm : context.state ≠ .write ∧ context.state ≠ .writeCmd := by simp [hstate]
  unfold idleHandle
  by_cases hfifo : 0 < context.fifo.items.length
  · rw [if_pos hfifo]
    exact .calm rfl (fun hret => nomatch hret) (.inr ⟨hcalm, .inr (.inl rfl)⟩)
  rw [if_neg hfifo]
  have hempty : context.fifo.items = [] := by simpa using hfifo
  split
  case h_1 hlist => exact .calm rfl (fun hret => nomatch hret) (.inl rfl)
  case h_2 pos rest hlist =>
    by_cases hlate : context.timedOut pos t = true
    · rw [if_pos hlate]
      by_cases hlast : pos.atCmd.retry - 1 = 0
      · have hstep : CmdStep context (.process t t')
            (.process { ret := .readClosed, frames := [], events := [.retried pos] }) _ :=
          .timesOut hstate hempty hlist hlate rfl (by simp [hlast])
        rw [if_pos hlast, ← hstate] at hstep
        dsimp only
        rw [if_pos hlast]
        exact hstep
      · have hstep : CmdStep context (.process t t')
            (.process { Report.none with events := [.retried pos] }) _ :=
          .timesOut hstate hempty hlist hlate rfl (by simp [hlast, Report.none])
        rw [if_neg hlast] at hstep
        dsimp only
        rw [if_neg hlast]
        exact hstep
    · rw [if_neg hlate]
      by_cases hbusy : context.busyFlag = 0
      · rw [if_pos hbusy]
        exact .begins hstate hempty hbusy (by simp [hlist])
      · rw [if_neg hbusy]
        exact .calm rfl (fun hret => nomatch hret) (.inl rfl)

theorem cmdStep_of_process {t t' : UInt32} {report : Report}
    (h : hyAtUtilsProcess context t t' = .ok (context', report)) :
    CmdStep context (.process t t') (.process report) context'.cmdSide := by
  -- the states as `HyAtUtilsProcess` groups them
  cases hstate : context.state
  case idle =>
    simp only [hyAtUtilsProcess, hstate] at h
    obtain ⟨rfl, rfl⟩ := Prod.mk.inj (Except.ok.inj h)
    exact cmdStep_of_idleHandle hstate
  case write | writeCmd | writeCmdWait | writeData | writeMax =>
    simp only [hyAtUtilsProcess, hstate] at h
    exact cmdStep_of_writeHandle h
  case unknown =>
    simp only [hyAtUtilsProcess, hstate] at h
    cases h
    exact .calm rfl (fun hret => nomatch hret) (.inl rfl)
  all_goals
    simp only [hyAtUtilsProcess, hstate] at h
    exact cmdStep_of_readHandle (by simp [hstate]) h

theorem cmdStep_of_writeCmd {atCmd : AtCmd} {memory : Bool} :
    CmdStep context (.writeCmd atCmd memory)
      (.writeCmd (hyAtUtilsWriteCmd context atCmd memory).2)
      (hyAtUtilsWriteCmd context atCmd memory).1.cmdSide := by
  unfold hyAtUtilsWriteCmd
  by_cases hroom : config.atCmdNum ≠ 0 ∧ config.atCmdNum ≤ context.atCmdNodeCnt
  · rw [if_pos hroom]
    exact .calm rfl (fun hret => nomatch hret) (.inl rfl)
  · rw [if_neg hroom]
    cases memory with
    | false => exact .calm rfl (fun hret => nomatch hret) (.inl rfl)
    | true => exact .accepts atCmd hroom

/-- **A call that completes** is one of the kinds of step. -/
theorem cmdStep_of_atStep (h : atStep context op = .ok (context', out)) :
    CmdStep context op out context'.cmdSide := by
  cases op with
  | putData buf =>
    cases h
    exact .calm rfl (fun hret => nomatch hret) (.inl rfl)
  | writeCmd atCmd memory =>
    obtain ⟨rfl, rfl⟩ := Prod.mk.inj (Except.ok.inj h)
    exact cmdStep_of_writeCmd
  | process t t' =>
    obtain ⟨⟨context₁, report⟩, hprocess, h⟩ := bind_eq_ok.mp h
    cases h
    exact cmdStep_of_process hprocess
  | clean =>
    cases h
    rw [hyAtUtilsClean, cmdSide_destroyClean]
    exact .cleans rfl rfl

/-! ## Faults -/

/-- The faults of a context: a buffer is left, or the head of the empty list is used where a command
is being handled. -/
def Faults (context : AtUtilsContext config) (fault : Fault) : Prop :=
  fault = .outOfBounds ∨ fault = .emptyList ∧ context.parsingFlag = false ∧
    context.writeList = [] ∧ context.state.usesHead = true

theorem getSignalStr_eq_error {ret : ℕ} {bytes : List UInt8} {fault : Fault}
    (h : getSignalStr ret bytes = .error fault) : fault = .outOfBounds := by
  induction bytes generalizing ret with
  | nil => simpa [getSignalStr] using h.symm
  | cons b bytes ih =>
    unfold getSignalStr at h
    split_ifs at h
    · simpa using h.symm
    · exact ih h

theorem readSignal_eq_error {strMin len : ℕ} {buf : List UInt8} {report : Report} {fault : Fault}
    (h : context.readSignal strMin buf len report = .error fault) : fault = .outOfBounds := by
  rcases bind_eq_error.mp h with hsignal | ⟨_ | ret, -, h⟩
  · unfold handleSignal at hsignal
    split_ifs at hsignal
    rcases bind_eq_error.mp hsignal with hstr | ⟨ret, -, h⟩
    · exact getSignalStr_eq_error hstr
    · exact nomatch h
  · exact nomatch h
  · exact nomatch h

theorem readFault_eq_error {report : Report} {fault : Fault}
    (h : context.readFault report = .error fault) :
    fault = .emptyList ∧ context.writeList = [] := by
  unfold readFault at h
  split at h
  case h_1 hlist => exact ⟨by simpa using h.symm, hlist⟩
  case h_2 pos rest hlist =>
    dsimp only at h
    split_ifs at h

theorem readAnswer_eq_error {report : Report} {fault : Fault}
    (h : context.readAnswer report = .error fault) :
    fault = .emptyList ∧ context.writeList = [] := by
  unfold readAnswer at h
  split at h
  case h_1 hlist => exact ⟨by simpa using h.symm, hlist⟩
  case h_2 => exact nomatch h

theorem readSwitch_eq_error {buf : List UInt8} {len : ℕ} {report : Report} {fault : Fault}
    (h : context.readSwitch buf len report = .error fault) :
    fault = .outOfBounds ∨
      fault = .emptyList ∧ context.writeList = [] ∧ context.state ≠ .readIpdData ∧
        context.state.usesHead = true := by
  cases hstate : context.state
  case readIpdData =>
    simp only [readSwitch, hstate] at h
    rcases bind_eq_error.mp h with hipd | ⟨⟨context₁, report₁⟩, -, h⟩
    · exact .inl (readIpd_eq_error hipd)
    · exact nomatch h
  case readError | readFaild =>
    simp only [readSwitch, hstate] at h
    rcases bind_eq_error.mp h with hfault | ⟨⟨context₁, report₁⟩, -, h⟩
    · obtain ⟨hfault, hlist⟩ := readFault_eq_error hfault
      exact .inr ⟨hfault, hlist, by simp, rfl⟩
    · exact nomatch h
  case readOk | readConnectOk =>
    simp only [readSwitch, hstate] at h
    rcases bind_eq_error.mp h with hanswer | ⟨⟨context₁, report₁⟩, -, h⟩
    · obtain ⟨hfault, hlist⟩ := readAnswer_eq_error hanswer
      exact .inr ⟨hfault, hlist, by simp, rfl⟩
    · exact nomatch h
  case readSignalCsq | readSignalCwjapDef =>
    simp only [readSwitch, hstate] at h
    exact .inl (readSignal_eq_error h)
  all_goals
    simp only [readSwitch, hstate] at h
    exact nomatch h

theorem readPass_eq_error {report : Report} {fault : Fault}
    (h : context.readPass report = .error fault) : Faults context fault := by
  rcases bind_eq_error.mp h with hswitch | ⟨⟨context₁, report₁, update⟩, -, h⟩
  · rcases readSwitch_eq_error hswitch with hfault | ⟨hfault, hlist, hipd, hhead⟩
    · exact .inl hfault
    · have hparsing := not_parsing_of_resume hipd
      rw [resume_of_not_parsing hparsing] at hlist hhead
      exact .inr ⟨hfault, hparsing, hlist, hhead⟩
  · exact nomatch h

/-- A pass that leaves a frame unfinished has taken bytes from the fifo. -/
theorem readPass_fifo {report report' : Report} (hpeek : context.peek ≠ [])
    (hipd : context.resume.state = .readIpdData)
    (h : context.readPass report = .ok (context', report')) (hgoing : context'.parsingFlag = true) :
    context'.fifo.items.length < context.fifo.items.length := by
  obtain ⟨-, ⟨hdone, -⟩ | ⟨-, -, hfifo⟩⟩ := readPass_ipd hpeek hipd h
  · exact nomatch hdone.symm.trans hgoing
  · have hpos : 0 < context.peek.length := List.length_pos_iff.mpr hpeek
    have hle : context.peek.length ≤ context.fifo.items.length := List.length_take_le' _ _
    rw [hfifo, BoundedQueue.get_items, List.length_drop]
    omega

/-- While a frame is being read the loop has a pass to spare for each byte of the fifo. -/
theorem readLoop_eq_error {fuel : ℕ} {report : Report} {fault : Fault}
    (hparsing : context.parsingFlag = true) (hfuel : context.fifo.items.length < fuel)
    (h : readLoop fuel context report = .error fault) : fault = .outOfBounds := by
  -- the fuel stays above the bytes that are left
  induction fuel generalizing context report with
  | zero => exact absurd hfuel (Nat.not_lt_zero _)
  | succ fuel ih =>
    unfold readLoop at h
    split_ifs at h with hpeek
    rcases bind_eq_error.mp h with hpass | ⟨⟨context₁, report₁⟩, hpass, h⟩
    · rcases readPass_eq_error hpass with hfault | ⟨-, hdone, -⟩
      · exact hfault
      · exact nomatch hparsing.symm.trans hdone
    · have hipd : context.resume.state = .readIpdData := by rw [resume_of_parsing hparsing]
      dsimp only at h
      split_ifs at h with hgoing
      have hless := readPass_fifo hpeek hipd hpass hgoing
      exact ih hgoing (by omega) h

theorem readHandle_eq_error {fault : Fault} (h : context.readHandle = .error fault) :
    Faults context fault := by
  unfold readHandle readLoop at h
  split_ifs at h with hpeek
  rcases bind_eq_error.mp h with hpass | ⟨⟨context₁, report₁⟩, hpass, h⟩
  · exact readPass_eq_error hpass
  · dsimp only at h
    split_ifs at h with hgoing
    by_cases hipd : context.resume.state = .readIpdData
    · exact .inl (readLoop_eq_error hgoing (readPass_fifo hpeek hipd hpass hgoing) h)
    · -- outside a frame there is one pass
      have hparsing := not_parsing_of_resume hipd
      obtain ⟨⟨context₂, report₂, update⟩, hswitch, hret⟩ := bind_eq_ok.mp hpass
      rw [resume_of_not_parsing hparsing] at hipd hswitch
      cases hret
      obtain ⟨hdone, -⟩ : _ ∧ CmdStep context (.process 0 0) _ _ :=
        cmdStep_of_readSwitch hparsing hpeek hipd hswitch
      rw [parsingFlag_updateOut] at hgoing
      exact nomatch hdone.symm.trans hgoing

theorem writeHandle_eq_error {t : UInt32} {fault : Fault}
    (h : context.writeHandle t = .error fault) :
    fault = .emptyList ∧ context.writeList = [] ∧ context.state.usesHead = true := by
  cases hstate : context.state
  case writeCmd | writeData =>
    simp only [writeHandle, hstate] at h
    split_ifs at h
    split at h
    case h_1 hlist => exact ⟨by simpa using h.symm, hlist, rfl⟩
    case h_2 => exact nomatch h
  all_goals
    simp only [writeHandle, hstate] at h
    exact nomatch h

/-- **Faults**: a call always returns, and the head of an empty list is used only where a command is
being handled. -/
theorem atStep_eq_error {fault : Fault} (h : atStep context op = .error fault) :
    fault = .outOfBounds ∨
      fault = .emptyList ∧ context.writeList = [] ∧ context.state.usesHead = true := by
  cases op with
  | putData | writeCmd | clean => exact nomatch h
  | process t t' =>
    rcases bind_eq_error.mp h with hprocess | ⟨_, -, h⟩
    · cases hstate : context.state
      case idle | unknown =>
        simp only [hyAtUtilsProcess, hstate] at hprocess
        exact nomatch hprocess
      case write | writeCmd | writeCmdWait | writeData | writeMax =>
        simp only [hyAtUtilsProcess, hstate] at hprocess
        exact .inr (hstate ▸ writeHandle_eq_error hprocess)
      all_goals
        simp only [hyAtUtilsProcess, hstate] at hprocess
        rcases readHandle_eq_error hprocess with hfault | ⟨hfault, -, hlist, hhead⟩
        · exact .inl hfault
        · exact .inr ⟨hfault, hlist, hstate ▸ hhead⟩
    · exact nomatch h

/-! ## Runs -/

/-- A call that does not fault, as a step of a run. -/
def atNext (context : AtUtilsContext config) (op : AtOp) : Option (AtUtilsContext config × AtOut) :=
  (atStep context op).toOption

theorem atNext_eq_some {r : AtUtilsContext config × AtOut} :
    atNext context op = some r ↔ atStep context op = .ok r := by
  unfold atNext
  cases atStep context op <;> simp [Except.toOption]

/-- **Runs with their log**: an invariant of the commands and the log that each kind of step keeps
under a condition gives, in runs under that condition, what follows from it in each call. -/
theorem eachStep_of_cmdStep (I : CmdSide → List CmdEvent → Prop)
    {C D : AtUtilsContext config × List CmdEvent → AtOp → Prop} {ops : List AtOp}
    (hinit : I (hyAtUtilsCreate config).cmdSide [])
    (hstep : ∀ {context : AtUtilsContext config} {log op out side}, CmdStep context op out side →
      C (context, log) op → I context.cmdSide log → I side (log ++ out.events))
    (hD : ∀ x op, I x.1.cmdSide x.2 → C x op → D x op)
    (hops : EachStep (logged AtOut.events atNext) C (hyAtUtilsCreate config, []) ops) :
    EachStep (logged AtOut.events atNext) D (hyAtUtilsCreate config, []) ops := by
  refine eachStep_of_eachStep (fun x => I x.1.cmdSide x.2) hD ?_ hinit hops
  rintro ⟨context, log⟩ op ⟨context', log'⟩ out h hC hnext
  obtain ⟨hcall, hlog⟩ := logged_eq_some.mp hnext
  dsimp only at hlog hcall ⊢
  rw [hlog]
  exact hstep (cmdStep_of_atStep (atNext_eq_some.mp hcall)) hC h

end HyUtils.AtUtils
