import HyUtils.AtUtils.Steps

/-!
# The command list as a queue

`at_cmd_node_cnt` is a byte that shadows the length of `write_list`. Commands are appended by
`HyAtUtilsWriteCmd`, and leave the list by a response, by a failure, by `HyAtUtilsClean` and by a
frame that is taken for garbage. Whatever the run, they leave it from its head.

## Main definitions

* `AtCmdList.text`: an entry without its counters
* `acceptedTexts`: the entries a log shows as accepted
* `Queued`: the list, the counter and the bound, against the log
* `LeavesFromHead`: what a call does to the list

## Main results

* `CmdStep.queued`: each kind of step keeps the list, the counter and the bound
* `CmdStep.leavesFromHead`: in each kind of step commands leave from the head
* `queue_kept`: both, along every run
-/

namespace HyUtils.AtUtils

open Runs AtUtilsContext

variable {config : AtConfig} {context context' : AtUtilsContext config} {op : AtOp} {out : AtOut}
  {log : List CmdEvent} {side : CmdSide}

/-- An entry without its counters: its number, its command and its data. -/
def AtCmdList.text (pos : AtCmdList) : ℕ × List UInt8 × List UInt8 :=
  (pos.node, pos.atCmd.cmd, pos.atCmd.data)

/-- The entry that an event shows as accepted. -/
def CmdEvent.acceptedText : CmdEvent → Option (ℕ × List UInt8 × List UInt8)
  | .accepted pos => some pos.text
  | _ => none

/-- The entries that a log shows as accepted, the oldest first. -/
def acceptedTexts (log : List CmdEvent) : List (ℕ × List UInt8 × List UInt8) :=
  log.filterMap CmdEvent.acceptedText

/-- The entries of the list, the head first. -/
def CmdSide.texts (side : CmdSide) : List (ℕ × List UInt8 × List UInt8) :=
  side.writeList.map AtCmdList.text

theorem acceptedTexts_append (log log' : List CmdEvent) :
    acceptedTexts (log ++ log') = acceptedTexts log ++ acceptedTexts log' :=
  List.filterMap_append

/-- The first `k` entries leave the list, and the counter follows. -/
structure CmdSide.Leaves (side side' : CmdSide) (k : ℕ) : Prop where
  le_length : k ≤ side.writeList.length
  texts : side'.texts = side.texts.drop k
  count : side'.atCmdNodeCnt = side.atCmdNodeCnt - UInt8.ofNat k
  nodes : side'.nodes = side.nodes

/-- No entry leaves. -/
theorem CmdSide.Leaves.stay {side' : CmdSide} (htexts : side'.texts = side.texts)
    (hcount : side'.atCmdNodeCnt = side.atCmdNodeCnt) (hnodes : side'.nodes = side.nodes) :
    side.Leaves side' 0 :=
  ⟨Nat.zero_le _, htexts, by rw [hcount]; simp, hnodes⟩

@[simp] theorem text_decRetry (pos : AtCmdList) : (decRetry pos).text = pos.text := rfl

@[simp] theorem text_decDelCnt (pos : AtCmdList) : (decDelCnt pos).text = pos.text := rfl

/-- **The queue**: the counter is the length of the list modulo 256, the list keeps to the bound,
and it is what is left at the end of all that was accepted, in that order. -/
structure Queued (config : AtConfig) (side : CmdSide) (log : List CmdEvent) : Prop where
  count : side.atCmdNodeCnt = UInt8.ofNat side.writeList.length
  room : config.atCmdNum ≠ 0 → side.writeList.length ≤ config.atCmdNum.toNat
  order : side.texts <:+ acceptedTexts log
  numbers : (acceptedTexts log).map Prod.fst = List.range side.nodes

/-- What a call does to the list: what was on it and what the call accepts is what leaves, and after
that what stays. A command that is refused leaves all as it was. -/
def LeavesFromHead (context : AtUtilsContext config) (_ : AtOp) (context' : AtUtilsContext config)
    (out : AtOut) : Prop :=
  (∃ gone, context.cmdSide.texts ++ acceptedTexts out.events = gone ++ context'.cmdSide.texts) ∧
    (out = .writeCmd none → context' = context)

/-! ## The counter and the bound -/

/-- The counter follows the entries that leave. -/
theorem sub_count (n k : ℕ) (hk : k ≤ n) : UInt8.ofNat n - UInt8.ofNat k = UInt8.ofNat (n - k) := by
  have hsum : UInt8.ofNat n = UInt8.ofNat (n - k) + UInt8.ofNat k := by
    rw [← UInt8.ofNat_add, Nat.sub_add_cancel hk]
  rw [hsum, UInt8.add_sub_cancel]

theorem queued_create (config : AtConfig) :
    Queued config (hyAtUtilsCreate config).cmdSide [] := by
  constructor
  · rfl
  · exact fun _ => Nat.zero_le _
  · exact List.suffix_rfl
  · rfl

/-- Entries leave from the head, and those that stay may be counted down. -/
theorem Queued.leave {side' : CmdSide} {log' : List CmdEvent} (h : Queued config side log)
    (hlog : acceptedTexts log' = acceptedTexts log) {k : ℕ} (hleave : side.Leaves side' k) :
    Queued config side' log' := by
  obtain ⟨hk, htexts, hcount, hnodes⟩ := hleave
  have hlength : side'.writeList.length = side.writeList.length - k := by
    simpa [CmdSide.texts] using congrArg List.length htexts
  obtain ⟨count, room, order, numbers⟩ := h
  constructor
  · rw [hcount, hlength, count, sub_count _ _ hk]
  · intro hnum
    have := room hnum
    omega
  · rw [hlog, htexts]
    exact (List.drop_suffix k side.texts).trans order
  · rwa [hlog, hnodes]

/-- An entry joins at the end of the list, which the bound allows. -/
theorem Queued.accept {pos : AtCmdList} (h : Queued config context.cmdSide log)
    (hpos : pos.node = context.nodes)
    (hroom : ¬(config.atCmdNum ≠ 0 ∧ config.atCmdNum ≤ context.atCmdNodeCnt)) :
    Queued config
      { context.cmdSide with
        writeList := context.writeList ++ [pos]
        atCmdNodeCnt := context.atCmdNodeCnt + 1
        nodes := context.nodes + 1 }
      (log ++ [.accepted pos]) := by
  obtain ⟨count, room, order, numbers⟩ := h
  have hlog : acceptedTexts (log ++ [.accepted pos]) = acceptedTexts log ++ [pos.text] :=
    acceptedTexts_append _ _
  constructor
  · change context.atCmdNodeCnt + 1 = _
    rw [show context.atCmdNodeCnt = _ from count, List.length_append, UInt8.ofNat_add]
    rfl
  · intro hnum
    have hlen : context.writeList.length ≤ config.atCmdNum.toNat := room hnum
    have hcnt : context.atCmdNodeCnt < config.atCmdNum :=
      UInt8.not_le.mp fun hle => hroom ⟨hnum, hle⟩
    have hmax := config.atCmdNum.toNat_lt
    -- the list is too short for the counter to have wrapped
    rw [show context.atCmdNodeCnt = _ from count, UInt8.lt_iff_toNat_lt, UInt8.toNat_ofNat',
      writeList_cmdSide, Nat.mod_eq_of_lt (by omega)] at hcnt
    simpa [Nat.succ_le_iff] using hcnt
  · rw [hlog]
    obtain ⟨gone, hgone⟩ := order
    refine ⟨gone, ?_⟩
    rw [← hgone]
    simp [CmdSide.texts]
  · rw [hlog, List.map_append, numbers, List.range_succ]
    simp [AtCmdList.text, hpos, cmdSide]

/-- **What a step does to the list**: it accepts a command, or some entries leave from the head. -/
theorem CmdStep.leaves (hstep : CmdStep context op out side) :
    (∃ atCmd, ¬(config.atCmdNum ≠ 0 ∧ config.atCmdNum ≤ context.atCmdNodeCnt) ∧
        out.events = [.accepted (context.atCmdListCreate atCmd)] ∧
        side = { context.cmdSide with
          writeList := context.writeList ++ [context.atCmdListCreate atCmd]
          atCmdNodeCnt := context.atCmdNodeCnt + 1
          nodes := context.nodes + 1 }) ∨
      acceptedTexts out.events = [] ∧ ∃ k, context.cmdSide.Leaves side k := by
  cases hstep with
  | accepts atCmd hroom => exact .inl ⟨atCmd, hroom, rfl, rfl⟩
  | calm hevents => exact .inr ⟨by rw [hevents]; rfl, 0, .stay rfl rfl rfl⟩
  | cleans hevents =>
    refine .inr ⟨by rw [hevents]; rfl, context.writeList.length, le_rfl, ?_, rfl, rfl⟩
    simp [CmdSide.texts, CmdSide.cleaned]
  | tags _ _ _ hreport | prompted _ hreport =>
    subst hreport
    exact .inr ⟨rfl, 0, .stay rfl rfl rfl⟩
  | begins | writes | skips | sends | sendsData => exact .inr ⟨rfl, 0, .stay rfl rfl rfl⟩
  | timesOut _ _ hlist _ hevents =>
    refine .inr ⟨by rw [events_process, hevents]; rfl, 0, .stay ?_ rfl rfl⟩
    simp [CmdSide.texts, hlist]
  | @fails _ _ _ pos rest _ _ _ hlist hevents =>
    refine .inr ⟨by rw [events_process, hevents]; rfl, ?_⟩
    by_cases hlast : pos.atCmd.retry - 1 = 0
    · -- the command is given up
      exact ⟨1, by simp [hlist], by simp [CmdSide.texts, hlist, hlast], if_pos hlast, rfl⟩
    · exact ⟨0, .stay (by simp [CmdSide.texts, hlist, hlast]) (if_neg hlast) rfl⟩
  | @answers _ _ _ pos rest _ _ _ hlist hevents =>
    refine .inr ⟨by rw [events_process, hevents]; rfl, ?_⟩
    by_cases hlast : pos.delCnt - 1 = 0
    · -- the command is complete
      exact ⟨1, by simp [hlist], by simp [CmdSide.texts, hlist, hlast], if_pos hlast, rfl⟩
    · exact ⟨0, .stay (by simp [CmdSide.texts, hlist, hlast]) (if_neg hlast) rfl⟩

/-- **One step** keeps the list, the counter and the bound. -/
theorem CmdStep.queued (hstep : CmdStep context op out side)
    (h : Queued config context.cmdSide log) : Queued config side (log ++ out.events) := by
  rcases hstep.leaves with ⟨atCmd, hroom, hevents, rfl⟩ | ⟨hnone, k, hleave⟩
  · rw [hevents]
    exact h.accept rfl hroom
  · apply h.leave _ hleave
    rw [acceptedTexts_append, hnone, List.append_nil]

/-- What leaves in a step is at the head of what was there before. -/
theorem CmdStep.exists_gone (hstep : CmdStep context op out side) :
    ∃ gone, context.cmdSide.texts ++ acceptedTexts out.events = gone ++ side.texts := by
  rcases hstep.leaves with ⟨atCmd, -, hevents, rfl⟩ | ⟨hnone, k, -, htexts, -⟩
  · refine ⟨[], ?_⟩
    rw [hevents]
    simp [CmdSide.texts, acceptedTexts, CmdEvent.acceptedText]
  · refine ⟨context.cmdSide.texts.take k, ?_⟩
    rw [hnone, htexts, List.append_nil, List.take_append_drop]

/-- A command that is refused changes nothing. -/
theorem hyAtUtilsWriteCmd_refused {atCmd : AtCmd} {memory : Bool}
    (h : (hyAtUtilsWriteCmd context atCmd memory).2 = none) :
    (hyAtUtilsWriteCmd context atCmd memory).1 = context := by
  unfold hyAtUtilsWriteCmd at h ⊢
  split_ifs at h ⊢ with hroom hmemory
  · rfl
  · rfl

/-! ## Runs -/

theorem leavesFromHead_of_atStep (h : atStep context op = .ok (context', out)) :
    LeavesFromHead context op context' out := by
  refine ⟨(cmdStep_of_atStep h).exists_gone, fun hrefused => ?_⟩
  cases op with
  | writeCmd atCmd memory =>
    obtain ⟨rfl, rfl⟩ := Prod.mk.inj (Except.ok.inj h)
    exact hyAtUtilsWriteCmd_refused (AtOut.writeCmd.inj hrefused)
  | putData | clean =>
    cases h
    exact nomatch hrefused
  | process t t' =>
    obtain ⟨r, -, h⟩ := bind_eq_ok.mp h
    cases h
    exact nomatch hrefused

/-- **The queue is kept**: after every run the counter is the length of the list modulo 256, the
list keeps to its bound, and what is left on it is the end of what was accepted; and in each call
commands leave the list from its head, and one that is refused changes nothing. -/
theorem queue_kept {ops : List AtOp} {outs : List AtOut}
    (h : run atNext (hyAtUtilsCreate config) ops = some (context, outs)) :
    Queued config context.cmdSide (outs.flatMap AtOut.events) ∧
      AllSteps atNext LeavesFromHead (hyAtUtilsCreate config) ops := by
  constructor
  · have hcreate := queued_create config
    apply run_shown (fun log context => Queued config context.cmdSide log) _ hcreate h
    intro log context op context' out hq hnext
    exact (cmdStep_of_atStep (atNext_eq_some.mp hnext)).queued hq
  · apply allSteps_of_run _ h
    intro context op context' out hnext
    exact leavesFromHead_of_atStep (atNext_eq_some.mp hnext)

/-- A framework that catches OK, with room for two commands. -/
def queueConfig : AtConfig :=
  { writeCb := true
    handleFrameCb := true
    catchStr := [⟨6, [79, 75]⟩]
    fifoLen := 64
    atCmdNum := 2
    isCmdOk := 0 }

/-- Two commands are queued and a third one comes too soon; the first one is sent and answered. -/
def queueOps : List AtOp :=
  [.writeCmd ⟨[65, 84], [], 0, 1000, 3⟩ true, .writeCmd ⟨[65, 66], [], 0, 1000, 3⟩ true,
    .writeCmd ⟨[65, 67], [], 0, 1000, 3⟩ true] ++ List.replicate 3 (.process 5 5) ++
    [.process 20 20, .putData [79, 75]] ++ List.replicate 4 (.process 20 20)

/-- Two commands find room, a third one is refused, and the first one is answered. -/
theorem queue_kept_answered :
    ∃ context outs, run atNext (hyAtUtilsCreate queueConfig) queueOps = some (context, outs) ∧
      context.atCmdNodeCnt = 1 ∧
      Queued queueConfig context.cmdSide (outs.flatMap AtOut.events) := by
  have hone : (run atNext (hyAtUtilsCreate queueConfig) queueOps).map (·.1.atCmdNodeCnt) = some 1 :=
    by decide +kernel
  obtain ⟨⟨context, outs⟩, h, hone⟩ := Option.map_eq_some_iff.mp hone
  exact ⟨context, outs, h, hone, (queue_kept h).1⟩

end HyUtils.AtUtils
