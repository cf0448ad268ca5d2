import HyUtils.AtUtils.Steps
import HyUtils.Foundation.Words

/-!
# The OKs a command waits for

`del_cnt` counts the OKs that an entry still waits for. It is set when the entry is created, each OK
decrements it, and sending the command again does not set it anew. With `is_cmd_ok` a command that
carries data waits for two of them, and is half answered in between.

## Main definitions

* `HalfAnswered`: one of the two OKs has been counted
* `dataSent log node`: whether the data of an entry have been sent since its command was
* `CountKept`: a call counts the OKs of a data command in turn, and makes no half answered command
  go out again
* `Outstanding`: what each entry still waits for
* `CountsAfresh`: what a call sends waits for all its OKs, and no data command is completed before
  its data

## Main results

* `CmdStep.outstanding`: one call under the condition keeps what each entry waits for
* `counts_afresh`: in runs of such calls each command is sent with its initial count
* `resent_half_answered`: a data command that is sent with one OK left, and is completed without its
  data
-/

namespace HyUtils.AtUtils

open Runs AtUtilsContext

variable {config : AtConfig} {context context' : AtUtilsContext config} {op : AtOp} {out : AtOut}
  {log log' : List CmdEvent} {event : CmdEvent} {pos : AtCmdList} {rest : List AtCmdList} {node : ℕ}

/-- Whether the data of an entry have been sent, after one more event. -/
def CmdEvent.dataSent (node : ℕ) (sent : Bool) : CmdEvent → Bool
  | .sentCmd pos => sent && pos.node ≠ node
  | .sentData pos => sent || pos.node = node
  | _ => sent

/-- Whether the data of an entry have been sent since its command was. -/
def dataSent (log : List CmdEvent) (node : ℕ) : Bool := log.foldl (CmdEvent.dataSent node) false

/-- No OK of the entry has been counted. -/
def Unanswered (config : AtConfig) (pos : AtCmdList) : Prop :=
  pos.delCnt = initialDelCnt config pos.atCmd

/-- One of the two OKs of the entry has been counted. -/
def HalfAnswered (config : AtConfig) (pos : AtCmdList) : Prop :=
  initialDelCnt config pos.atCmd = 2 ∧ pos.delCnt = 1

instance HalfAnswered.decidable : Decidable (HalfAnswered config pos) :=
  inferInstanceAs (Decidable (_ ∧ _))

/-- The head of the list is not half answered if it is due. -/
def DueUnhalved (context : AtUtilsContext config) (due : AtCmdList → Bool) : Prop :=
  ∀ pos ∈ context.writeList.head?, due pos = true → ¬HalfAnswered config pos

/-- An OK finds a data command at the head of the list on its way: the last OK its data, any other
one its text. -/
def AnswersDue (context : AtUtilsContext config) : Prop :=
  ∀ pos ∈ context.writeList.head?, 0 < pos.atCmd.dataLen →
    context.busyFlag = if pos.delCnt = 1 then 2 else 1

/-- What is read keeps the counts: each OK is due; and a half answered command does not fail unless
it is given up, and is not sent again on a tag. -/
def ReadCounted (context : AtUtilsContext config) : Prop :=
  (context.state = .readOk ∨ context.state = .readConnectOk → AnswersDue context) ∧
  (context.state = .readError ∨ context.state = .readFaild →
    DueUnhalved context (·.atCmd.retry ≠ 1)) ∧
  (context.state = .readHead → context.headState = .write ∨ context.headState = .writeCmd →
    DueUnhalved context fun _ => true)

/-- A call of `HyAtUtilsProcess` keeps the counts: what it reads does, and an idle one finds no half
answered command overdue. -/
def CountKept (context : AtUtilsContext config) : AtOp → Prop
  | .process tick _ =>
    (context.parsingFlag = false → context.peek ≠ [] → ReadCounted context) ∧
    (context.state = .idle → context.fifo.items = [] →
      DueUnhalved context (context.timedOut · tick))
  | _ => True

instance DueUnhalved.decidable (context : AtUtilsContext config) (due : AtCmdList → Bool) :
    Decidable (DueUnhalved context due) :=
  inferInstanceAs (Decidable (∀ pos ∈ context.writeList.head?, _ = _ → ¬HalfAnswered config pos))

instance AnswersDue.decidable (context : AtUtilsContext config) : Decidable (AnswersDue context) :=
  inferInstanceAs (Decidable (∀ pos ∈ context.writeList.head?, _ < _ → _ = _))

instance ReadCounted.decidable (context : AtUtilsContext config) :
    Decidable (ReadCounted context) :=
  inferInstanceAs (Decidable ((_ = _ ∨ _ = _ → AnswersDue context) ∧
    (_ = _ ∨ _ = _ → DueUnhalved context _) ∧ (_ = _ → _ = _ ∨ _ = _ → DueUnhalved context _)))

instance CountKept.decidable (context : AtUtilsContext config) :
    ∀ op, Decidable (CountKept context op)
  | .process _ _ => inferInstanceAs (Decidable ((_ = _ → _ ≠ _ → ReadCounted context) ∧
      (_ = _ → _ = _ → DueUnhalved context _)))
  | .putData _ | .writeCmd _ _ | .clean => inferInstanceAs (Decidable True)

/-! ## Entries -/

theorem initialDelCnt_cases (config : AtConfig) (atCmd : AtCmd) :
    initialDelCnt config atCmd = 1 ∨ initialDelCnt config atCmd = 2 ∧ 0 < atCmd.dataLen := by
  unfold initialDelCnt
  split
  case isTrue h => exact .inr ⟨rfl, h.1⟩
  case isFalse h => exact .inl rfl

theorem unanswered_atCmdListCreate (atCmd : AtCmd) :
    Unanswered config (context.atCmdListCreate atCmd) := rfl

theorem Unanswered.decRetry (h : Unanswered config pos) :
    Unanswered config (AtUtilsContext.decRetry pos) := h

/-- An OK that does not complete an entry is the first of two. -/
theorem Unanswered.decDelCnt (h : Unanswered config pos) (hlast : pos.delCnt ≠ 1) :
    HalfAnswered config (AtUtilsContext.decDelCnt pos) ∧ 0 < pos.atCmd.dataLen := by
  rcases initialDelCnt_cases config pos.atCmd with hone | ⟨htwo, hdata⟩
  · exact absurd (h.trans hone) hlast
  · refine ⟨⟨htwo, ?_⟩, hdata⟩
    rw [AtUtilsContext.decDelCnt, h, htwo]
    rfl

@[simp] theorem dataSent_concat :
    dataSent (log ++ [event]) node = event.dataSent node (dataSent log node) := by
  simp [dataSent]

/-! ## What each entry waits for -/

/-- The head of the list: no OK of it has been counted, or it is half answered and on its way; and
where its data are on their way they have been sent. -/
structure HeadOutstanding (config : AtConfig) (log : List CmdEvent) (side : CmdSide)
    (pos : AtCmdList) : Prop where
  count : Unanswered config pos ∨ HalfAnswered config pos ∧ side.busyFlag ≠ 0 ∧ ¬side.Sends
  data : side.busyFlag = 2 → ¬side.Sends → dataSent log pos.node = true

/-- Behind the head no OK has been counted. -/
def QueueOutstanding (config : AtConfig) (log : List CmdEvent) (side : CmdSide) :
    List AtCmdList → Prop
  | [] => side.busyFlag = 2 → side.Sends
  | pos :: rest => HeadOutstanding config log side pos ∧ ∀ pos' ∈ rest, Unanswered config pos'

/-- **Outstanding**: what each entry still waits for. -/
def Outstanding (config : AtConfig) (side : CmdSide) (log : List CmdEvent) : Prop :=
  QueueOutstanding config log side side.writeList

/-- Entries that have not been answered wait for all their OKs, as long as no data are taken to be
on their way. -/
theorem outstanding_of_unanswered {side : CmdSide}
    (h : ∀ pos ∈ side.writeList, Unanswered config pos) (hdata : side.busyFlag = 2 → side.Sends) :
    Outstanding config side log := by
  unfold Outstanding
  cases hlist : side.writeList with
  | nil => exact hdata
  | cons pos rest =>
    rw [hlist] at h
    obtain ⟨hpos, hrest⟩ := List.forall_mem_cons.mp h
    exact ⟨⟨.inl hpos, fun hbusy hsends => absurd (hdata hbusy) hsends⟩, hrest⟩

/-- The entries have not been answered if the head is not half answered, or is not on its way. -/
theorem Outstanding.unanswered {side : CmdSide} (h : Outstanding config side log)
    (hhead : ∀ pos ∈ side.writeList.head?, HalfAnswered config pos →
      side.busyFlag = 0 ∨ side.Sends) :
    ∀ pos ∈ side.writeList, Unanswered config pos := by
  unfold Outstanding at h
  cases hlist : side.writeList with
  | nil => exact List.forall_mem_nil _
  | cons pos rest =>
    rw [hlist] at h hhead
    refine List.forall_mem_cons.mpr ⟨?_, h.2⟩
    rcases h.1.count with hpos | ⟨hhalf, hbusy, hsends⟩
    · exact hpos
    · exact ((hhead pos rfl hhalf).elim hbusy hsends).elim

/-- A head that is not half answered, or is not on its way, may be taken up. -/
theorem Outstanding.takeUp {side side' : CmdSide} (h : Outstanding config side log)
    (hlist : side'.writeList = side.writeList)
    (hhead : ∀ pos ∈ side.writeList.head?, HalfAnswered config pos →
      side.busyFlag = 0 ∨ side.Sends)
    (hdata : side'.busyFlag = 2 → side'.Sends) : Outstanding config side' log' := by
  refine outstanding_of_unanswered ?_ hdata
  rw [hlist]
  exact h.unanswered hhead

/-- The state may change as long as the head is as much about to be sent as before. -/
theorem Outstanding.move {side side' : CmdSide} (h : Outstanding config side log)
    (hlist : side'.writeList = side.writeList) (hbusy : side'.busyFlag = side.busyFlag)
    (hsends : side'.Sends ↔ side.Sends) : Outstanding config side' log := by
  unfold Outstanding at h ⊢
  rw [hlist]
  cases hlist' : side.writeList with
  | nil =>
    rw [hlist'] at h
    intro hnow
    rw [hbusy] at hnow
    exact hsends.mpr (h hnow)
  | cons pos rest =>
    rw [hlist'] at h
    obtain ⟨⟨hcount, hdata⟩, hrest⟩ := h
    refine ⟨⟨?_, ?_⟩, hrest⟩
    · rw [hbusy, hsends]
      exact hcount
    · rw [hbusy, hsends]
      exact hdata

/-- A new entry waits for all its OKs. -/
theorem Outstanding.accept {side side' : CmdSide} (h : Outstanding config side log)
    (hlist : side'.writeList = side.writeList ++ [pos]) (hpos : Unanswered config pos)
    (hstate : side'.state = side.state) (hbusy : side'.busyFlag = side.busyFlag) :
    Outstanding config side' (log ++ [.accepted pos]) := by
  have hsends : side'.Sends ↔ side.Sends := by
    rw [CmdSide.Sends, CmdSide.Sends, hstate]
  unfold Outstanding at h ⊢
  rw [hlist]
  cases hlist' : side.writeList with
  | nil =>
    rw [hlist'] at h
    refine ⟨⟨.inl hpos, fun hnow hnot => ?_⟩, List.forall_mem_nil _⟩
    rw [hbusy] at hnow
    exact absurd (hsends.mpr (h hnow)) hnot
  | cons head rest =>
    rw [hlist'] at h
    obtain ⟨⟨hcount, hdata⟩, hrest⟩ := h
    refine ⟨⟨?_, ?_⟩, ?_⟩
    · rw [hbusy, hsends]
      exact hcount
    · rw [hbusy, hsends, dataSent_concat]
      exact hdata
    · exact List.forall_mem_append.mpr ⟨hrest, List.forall_mem_singleton.mpr hpos⟩

/-- The head is written out with its data. -/
theorem Outstanding.sendData {side side' : CmdSide} (h : Outstanding config side log)
    (hlist : side.writeList = pos :: rest) (hlist' : side'.writeList = pos :: rest)
    (hsends : ¬side'.Sends) (hbusy : side'.busyFlag = 2) :
    Outstanding config side' (log ++ [.sentData pos]) := by
  unfold Outstanding at h ⊢
  rw [hlist] at h
  rw [hlist']
  obtain ⟨⟨hcount, -⟩, hrest⟩ := h
  refine ⟨⟨?_, fun _ _ => ?_⟩, hrest⟩
  · rcases hcount with hpos | ⟨hhalf, -⟩
    · exact .inl hpos
    · exact .inr ⟨hhalf, by simp [hbusy], hsends⟩
  · simp [CmdEvent.dataSent]

/-- An OK that is due leaves the entries behind the head alone. -/
theorem Outstanding.answer {side side' : CmdSide} (h : Outstanding config side log)
    (hlist : side.writeList = pos :: rest)
    (hdue : 0 < pos.atCmd.dataLen → side.busyFlag = if pos.delCnt = 1 then 2 else 1)
    (hlist' : side'.writeList = if pos.delCnt - 1 = 0 then rest else decDelCnt pos :: rest)
    (hbusy : side'.busyFlag =
      if side.busyFlag = 2 ∨ pos.atCmd.dataLen = 0 then 0 else side.busyFlag)
    (hsends : ¬side'.Sends) : Outstanding config side' log := by
  unfold Outstanding at h
  rw [hlist] at h
  obtain ⟨⟨hcount, -⟩, hrest⟩ := h
  by_cases hlast : pos.delCnt = 1
  · -- the command is complete, and nothing is on its way any more
    rw [if_pos (Words.sub_one_eq_zero.mpr hlast)] at hlist'
    apply outstanding_of_unanswered (hlist' ▸ hrest)
    intro hnow
    rw [if_pos hlast] at hdue
    rw [hbusy, if_pos] at hnow
    · exact absurd hnow (by decide)
    · by_cases hdata : pos.atCmd.dataLen = 0
      · exact .inr hdata
      · exact .inl (hdue (UInt16.pos_iff_ne_zero.mpr hdata))
  · -- the first of two OKs: the flag stays, and the command is half answered
    have hpos : Unanswered config pos := hcount.resolve_right fun hhalf => hlast hhalf.1.2
    obtain ⟨hhalf, hdata⟩ := hpos.decDelCnt hlast
    have hone : side.busyFlag = 1 := (hdue hdata).trans (if_neg hlast)
    have hone' : side'.busyFlag = 1 := by
      rw [hbusy, if_neg, hone]
      rintro (htwo | hzero)
      · exact absurd (hone.symm.trans htwo) (by decide)
      · exact absurd hzero (UInt16.pos_iff_ne_zero.mp hdata)
    unfold Outstanding
    rw [hlist', if_neg fun hzero => hlast (Words.sub_one_eq_zero.mp hzero)]
    exact ⟨⟨.inr ⟨hhalf, by simp [hone'], hsends⟩, fun hnow => by simp [hone'] at hnow⟩, hrest⟩

/-! ## Calls -/

/-- **One call** under the condition keeps what each entry waits for. -/
theorem CmdStep.outstanding {side : CmdSide} (hstep : CmdStep context op out side)
    (hkept : CountKept context op) (h : Outstanding config context.cmdSide log) :
    Outstanding config side (log ++ out.events) := by
  cases hstep with
  | @calm _ _ state hevents _ hstate =>
    rw [hevents, List.append_nil]
    refine h.move rfl rfl ?_
    -- whether the head is about to be sent does not change
    rcases hstate with rfl | ⟨⟨hwrite, hwriteCmd⟩, hstate⟩
    · rfl
    · refine iff_of_false ?_ fun hnow => hnow.elim hwrite hwriteCmd
      rcases hstate with rfl | rfl | rfl <;> simp [CmdSide.Sends]
  | accepts atCmd => exact h.accept rfl (unanswered_atCmdListCreate atCmd) rfl rfl
  | cleans => exact outstanding_of_unanswered (List.forall_mem_nil _) (by simp [CmdSide.cleaned])
  | tags hstate hparsing hpeek hreport =>
    subst hreport
    by_cases hsends : context.headState = .write ∨ context.headState = .writeCmd
    · have hwhole := (hkept.1 hparsing hpeek).2.2 hstate hsends
      refine h.takeUp rfl (fun pos hpos hhalf => ?_) fun _ => hsends
      exact absurd hhalf (hwhole pos hpos rfl)
    · rw [events_process, events_none, List.append_nil]
      exact h.move rfl rfl (iff_of_false hsends (by simp [CmdSide.Sends, cmdSide, hstate]))
  | prompted hstate hreport =>
    subst hreport
    rw [events_process, events_none, List.append_nil]
    refine h.move rfl rfl (iff_of_false ?_ ?_) <;> simp [CmdSide.Sends, cmdSide, hstate]
  | begins _ _ hbusy => exact h.takeUp rfl (fun _ _ _ => .inl hbusy) fun _ => .inl rfl
  | writes hstate => exact h.takeUp rfl (fun _ _ _ => .inr (.inl hstate)) fun _ => .inr rfl
  | skips hstate | sends hstate =>
    exact h.takeUp rfl (fun _ _ _ => .inr (.inr hstate)) (by simp)
  | sendsData hstate hcb hlist => exact h.sendData hlist hlist (by simp [CmdSide.Sends]) rfl
  | @timesOut _ _ report pos rest hstate hfifo hlist hlate =>
    -- no OK has been counted for the head that goes out again
    have hwhole := hkept.2 hstate hfifo
    have hcmds := h.unanswered fun pos' hpos' hhalf => by
      obtain rfl : pos = pos' := by simpa [cmdSide, hlist] using hpos'
      exact absurd hhalf (hwhole pos hpos' hlate)
    rw [writeList_cmdSide, hlist] at hcmds
    obtain ⟨hpos, hrest⟩ := List.forall_mem_cons.mp hcmds
    exact outstanding_of_unanswered (List.forall_mem_cons.mpr ⟨hpos.decRetry, hrest⟩) (by simp)
  | @fails _ _ report pos rest hstate hparsing hpeek hlist =>
    have hrest : ∀ pos' ∈ rest, Unanswered config pos' := by
      unfold Outstanding at h
      rw [writeList_cmdSide, hlist] at h
      exact h.2
    refine outstanding_of_unanswered ?_ fun _ => .inl rfl
    dsimp only
    -- the command is given up, or goes out again without any OK counted
    split_ifs with hlast
    · exact hrest
    · have hwhole := (hkept.1 hparsing hpeek).2.1 hstate pos (by simp [hlist])
      have hretry : pos.atCmd.retry ≠ 1 := fun hone => hlast (Words.sub_one_eq_zero.mpr hone)
      have hpos := h.unanswered fun pos' hpos' hhalf => by
        obtain rfl : pos = pos' := by simpa [cmdSide, hlist] using hpos'
        exact absurd hhalf (hwhole (by simpa using hretry))
      have hpos' : Unanswered config pos := hpos pos (by simp [cmdSide, hlist])
      exact List.forall_mem_cons.mpr ⟨hpos'.decRetry, hrest⟩
  | @answers _ _ report pos rest hstate hparsing hpeek hlist hevents =>
    rw [events_process, hevents, List.append_nil]
    have hdue := (hkept.1 hparsing hpeek).1 hstate pos (by simp [hlist])
    exact h.answer hlist hdue rfl rfl (by simp [CmdSide.Sends])

/-- A command that is sent is at the head of the list and has its turn. -/
theorem CmdStep.sentCmd {side : CmdSide} (hstep : CmdStep context op out side)
    (hmem : .sentCmd pos ∈ out.events) :
    context.state = .writeCmd ∧ ∃ rest, context.writeList = pos :: rest := by
  cases hstep with
  | calm hevents | cleans hevents => simp [hevents] at hmem
  | tags _ _ _ hreport | prompted _ hreport =>
    subst hreport
    exact nomatch hmem
  | accepts | begins | writes | skips | sendsData => simp [AtOut.events, Report.none] at hmem
  | timesOut _ _ _ _ hevents | answers _ _ _ _ hevents => simp [AtOut.events, hevents] at hmem
  | fails _ _ _ _ hevents => simp [AtOut.events, hevents] at hmem
  | @sends _ _ head rest hstate _ hlist =>
    obtain rfl : pos = head := by simpa [AtOut.events, Report.none] using hmem
    exact ⟨hstate, rest, hlist⟩

/-- An OK that removes the head of the list was its last one. -/
theorem CmdStep.completes {side : CmdSide} (hstep : CmdStep context op out side)
    (hlist : context.writeList = pos :: rest) (hlist' : side.writeList = rest)
    (hret : out.ret = .readOk ∨ out.ret = .readConnectOk) :
    (∃ t t', op = .process t t') ∧ pos.delCnt = 1 ∧
      (context.state = .readOk ∨ context.state = .readConnectOk) ∧
      context.parsingFlag = false ∧ context.peek ≠ [] := by
  have hcons : pos :: rest ≠ rest := List.cons_ne_self pos rest
  cases hstep with
  | calm | tags | prompted | begins | writes | skips | sends | sendsData =>
    exact absurd (hlist.symm.trans hlist') hcons
  | accepts => simp [AtOut.ret] at hret
  | cleans _ hidle => simp [hidle] at hret
  | @timesOut _ _ _ head tail _ _ hcmds =>
    obtain ⟨rfl, rfl⟩ := List.cons.inj (hcmds.symm.trans hlist)
    exact absurd hlist' (List.cons_ne_self _ _)
  | @fails _ _ report head tail hstate _ _ hcmds _ hclosed =>
    obtain ⟨rfl, rfl⟩ := List.cons.inj (hcmds.symm.trans hlist)
    by_cases hlast : head.atCmd.retry - 1 = 0
    · rw [show (AtOut.process report).ret = _ from hclosed.mpr hlast] at hret
      simp at hret
    · simp [hlast] at hlist'
  | @answers _ _ report head tail hstate hparsing hpeek hcmds =>
    obtain ⟨rfl, rfl⟩ := List.cons.inj (hcmds.symm.trans hlist)
    refine ⟨⟨_, _, rfl⟩, ?_, hstate, hparsing, hpeek⟩
    by_contra hone
    simp [Words.sub_one_eq_zero, hone] at hlist'

/-- What a call sends waits for all its OKs: a command has its initial count each time it is sent;
and when an OK removes a data command, its data have been sent since the command was. -/
def CountsAfresh (x : AtUtilsContext config × List CmdEvent) (op : AtOp) : Prop :=
  ∀ x' out, logged AtOut.events atNext x op = some (x', out) →
    (∀ pos, .sentCmd pos ∈ out.events → pos.delCnt = initialDelCnt config pos.atCmd) ∧
    ∀ pos rest, x.1.writeList = pos :: rest → x'.1.writeList = rest →
      out.ret = .readOk ∨ out.ret = .readConnectOk → 0 < pos.atCmd.dataLen →
        dataSent x.2 pos.node = true

theorem countsAfresh_of_outstanding {x : AtUtilsContext config × List CmdEvent}
    (h : Outstanding config x.1.cmdSide x.2) (hkept : CountKept x.1 op) : CountsAfresh x op := by
  obtain ⟨context, log⟩ := x
  rintro ⟨context', log'⟩ out hnext
  obtain ⟨hcall, -⟩ := logged_eq_some.mp hnext
  have hstep := cmdStep_of_atStep (atNext_eq_some.mp hcall)
  dsimp only at h hkept hstep ⊢
  refine ⟨fun pos hmem => ?_, fun pos rest hlist hlist' hret hdata => ?_⟩
  · obtain ⟨hstate, rest, hlist⟩ := hstep.sentCmd hmem
    exact h.unanswered (fun _ _ _ => .inr (.inr hstate)) pos (by simp [cmdSide, hlist])
  · obtain ⟨⟨t, t', rfl⟩, hone, hstate, hparsing, hpeek⟩ := hstep.completes hlist hlist' hret
    have hdue := (hkept.1 hparsing hpeek).1 hstate pos (by simp [hlist]) hdata
    unfold Outstanding at h
    rw [writeList_cmdSide, hlist] at h
    apply h.1.data (hdue.trans (if_pos hone))
    rcases hstate with hstate | hstate <;> simp [CmdSide.Sends, cmdSide, hstate]

/-- **Each sending counts afresh**: in every run whose calls keep the counts, each command is sent
with its initial count, and no OK removes a data command before its data have been sent. -/
theorem counts_afresh (config : AtConfig) {ops : List AtOp}
    (hops : EachStep (logged AtOut.events atNext) (fun x op => CountKept x.1 op)
      (hyAtUtilsCreate config, []) ops) :
    EachStep (logged AtOut.events atNext) CountsAfresh (hyAtUtilsCreate config, []) ops := by
  apply eachStep_of_cmdStep (Outstanding config) ?_ CmdStep.outstanding ?_ hops
  · apply outstanding_of_unanswered (List.forall_mem_nil _)
    simp [cmdSide, hyAtUtilsCreate]
  · intro x op h hkept
    exact countsAfresh_of_outstanding h hkept

/-- A framework that catches OK and the prompt for data, and whose module answers both a command and
its data with OK. -/
def promptConfig : AtConfig :=
  { writeCb := true
    handleFrameCb := true
    catchStr := [⟨6, [79, 75]⟩, ⟨15, [62]⟩]
    fifoLen := 64
    atCmdNum := 0
    isCmdOk := 1 }

/-- A data command is answered, prompted for its data and answered again, and a plain command after
it is sent twice. -/
theorem counts_afresh_prompted :
    EachStep (logged AtOut.events atNext) CountsAfresh (hyAtUtilsCreate promptConfig, [])
      ([.writeCmd ⟨[65, 84], [1, 2], 2, 1000, 3⟩ true, .writeCmd ⟨[65, 84], [], 0, 1000, 3⟩ true] ++
        List.replicate 3 (.process 5 5) ++ [.process 20 20, .putData [79, 75, 62]] ++
        List.replicate 7 (.process 20 20) ++ [.putData [79, 75]] ++
        List.replicate 8 (.process 30 30) ++ List.replicate 8 (.process 2000 2000)) :=
  counts_afresh promptConfig (by decide +kernel)

/-- A data command is answered once, and the prompt for its data stays out. It is sent again with
one OK left, and the OK that answers it then removes it, although its data have never been sent. -/
theorem resent_half_answered :
    ∃ context outs,
      run atNext (hyAtUtilsCreate promptConfig)
        ([.writeCmd ⟨[65, 84], [1, 2], 2, 1000, 3⟩ true] ++ List.replicate 3 (.process 5 5) ++
          [.process 20 20, .putData [79, 75]] ++ List.replicate 4 (.process 20 20) ++
          List.replicate 3 (.process 2000 2000) ++ [.process 2020 2020, .putData [79, 75]] ++
          List.replicate 3 (.process 2020 2020)) = some (context, outs) ∧
      outs.flatMap AtOut.events = [.accepted ⟨0, ⟨[65, 84], [1, 2], 2, 1000, 3⟩, 2⟩,
        .sentCmd ⟨0, ⟨[65, 84], [1, 2], 2, 1000, 3⟩, 2⟩,
        .retried ⟨0, ⟨[65, 84], [1, 2], 2, 1000, 3⟩, 1⟩,
        .sentCmd ⟨0, ⟨[65, 84], [1, 2], 2, 1000, 2⟩, 1⟩] ∧
      initialDelCnt promptConfig ⟨[65, 84], [1, 2], 2, 1000, 2⟩ = 2 ∧
      outs.getLast?.map AtOut.ret = some .readOk ∧ context.writeList = [] := by
  refine ⟨_, _, rfl, ?_, ?_, ?_, ?_⟩
  all_goals decide +kernel

end HyUtils.AtUtils
