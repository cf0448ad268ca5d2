import HyUtils.AtUtils.Steps
import HyUtils.Foundation.Words

/-!
# Retries

A command is sent again when its answer is overdue or says that it failed, and its retry counter is
decremented each time. What the counter leaves is weighed against the times the command has been
sent, along the log of a run.

## Main definitions

* `sends log node`: how often an entry has been sent
* `RetryKept`: a call touches no command that has been given up, and takes the last retry of none
  that is not on its way
* `Budgeted`: what is left of the retry counters, and what has been sent
* `WithinRetries`: what a call does is within the retries of each command

## Main results

* `CmdStep.budgeted`: one call under the condition keeps the budget
* `sends_within_retries`: in runs of such calls no command is sent more often than its retries allow
* `closed_before_sent`: a command given up before it is sent, and sent afterwards
-/

namespace HyUtils.AtUtils

open Runs AtUtilsContext

variable {config : AtConfig} {context context' : AtUtilsContext config} {op : AtOp} {out : AtOut}
  {log events : List CmdEvent} {pos : AtCmdList} {rest : List AtCmdList} {node : ℕ}

/-- Whether an event sends an entry. -/
def CmdEvent.sends (node : ℕ) : CmdEvent → Bool
  | .sentCmd pos => pos.node = node
  | _ => false

/-- How often an entry has been sent. -/
def sends (log : List CmdEvent) (node : ℕ) : ℕ := log.countP (CmdEvent.sends node)

/-- An entry that was queued with retries. -/
def CmdEvent.limits (node : ℕ) : CmdEvent → Bool
  | .accepted pos => pos.node = node ∧ pos.atCmd.retry ≠ 0
  | _ => false

/-- Whether an entry was queued with retries. -/
def limited (log : List CmdEvent) (node : ℕ) : Bool := log.any (CmdEvent.limits node)

/-- Whether an event takes the last retry of an entry. -/
def CmdEvent.givesUp (node : ℕ) : CmdEvent → Bool
  | .retried pos => pos.node = node ∧ pos.atCmd.retry = 1
  | _ => false

/-- Whether the last retry of an entry has been taken. -/
def givenUp (log : List CmdEvent) (node : ℕ) : Bool := log.any (CmdEvent.givesUp node)

/-- The head of the list has not been given up, if it was queued with retries. -/
def Kept (x : AtUtilsContext config × List CmdEvent) : Prop :=
  ∀ pos ∈ x.1.writeList.head?, limited x.2 pos.node = true → givenUp x.2 pos.node = false

/-- The head of the list is on its way if it is due with its last retry. -/
def LastOnItsWay (x : AtUtilsContext config × List CmdEvent) (due : AtCmdList → Bool) : Prop :=
  ∀ pos ∈ x.1.writeList.head?, due pos = true → limited x.2 pos.node = true →
    pos.atCmd.retry = 1 → x.1.busyFlag ≠ 0

/-- The last OK that the head waits for is the one that ends the waiting. -/
def AnswersInTurn (context : AtUtilsContext config) : Prop :=
  ∀ pos ∈ context.writeList.head?, context.busyFlag ≠ 0 →
    (pos.delCnt - 1 = 0 ↔ context.busyFlag = 2 ∨ pos.atCmd.dataLen = 0)

/-- What is read keeps the retries: a failure finds a head that has not been given up, and that is
on its way when its last retry is taken; the answers come in turn; and no tag makes the framework
send a command that is on its way or has been given up. -/
def ReadKept (x : AtUtilsContext config × List CmdEvent) : Prop :=
  (x.1.state = .readError ∨ x.1.state = .readFaild → Kept x ∧ LastOnItsWay x fun _ => true) ∧
  (x.1.state = .readOk ∨ x.1.state = .readConnectOk → AnswersInTurn x.1) ∧
  (x.1.state = .readHead → x.1.headState = .write ∨ x.1.headState = .writeCmd →
    x.1.busyFlag = 0 ∧ Kept x)

/-- A call of `HyAtUtilsProcess` keeps the retries: what it reads does; an idle one finds a head
that has not been given up, and that is on its way when it is overdue with its last retry; what it
sends goes out, and data follow their command. -/
def RetryKept (x : AtUtilsContext config × List CmdEvent) : AtOp → Prop
  | .process tick _ =>
    (x.1.parsingFlag = false → x.1.peek ≠ [] → ReadKept x) ∧
    (x.1.state = .idle → x.1.fifo.items = [] →
      Kept x ∧ LastOnItsWay x (x.1.timedOut · tick)) ∧
    (x.1.state = .writeCmd → config.writeCb = true) ∧
    (x.1.state = .writeData → config.writeCb = true → x.1.busyFlag ≠ 0)
  | _ => True

instance Kept.decidable (x : AtUtilsContext config × List CmdEvent) : Decidable (Kept x) :=
  inferInstanceAs (Decidable (∀ pos ∈ x.1.writeList.head?, _ = _ → _ = _))

instance LastOnItsWay.decidable (x : AtUtilsContext config × List CmdEvent)
    (due : AtCmdList → Bool) : Decidable (LastOnItsWay x due) :=
  inferInstanceAs (Decidable (∀ pos ∈ x.1.writeList.head?, _ = _ → _ = _ → _ = _ → _ ≠ _))

instance AnswersInTurn.decidable (context : AtUtilsContext config) :
    Decidable (AnswersInTurn context) :=
  inferInstanceAs (Decidable (∀ pos ∈ context.writeList.head?, _ ≠ _ → (_ = _ ↔ _ = _ ∨ _ = _)))

instance ReadKept.decidable (x : AtUtilsContext config × List CmdEvent) : Decidable (ReadKept x) :=
  inferInstanceAs (Decidable ((_ = _ ∨ _ = _ → Kept x ∧ LastOnItsWay x _) ∧
    (_ = _ ∨ _ = _ → AnswersInTurn x.1) ∧ (_ = _ → _ = _ ∨ _ = _ → _ = _ ∧ Kept x)))

instance RetryKept.decidable (x : AtUtilsContext config × List CmdEvent) :
    ∀ op, Decidable (RetryKept x op)
  | .process _ _ => inferInstanceAs (Decidable ((_ = _ → _ ≠ _ → ReadKept x) ∧
      (_ = _ → _ = _ → Kept x ∧ LastOnItsWay x _) ∧ (_ = _ → _ = _) ∧ (_ = _ → _ = _ → _ ≠ _)))
  | .putData _ | .writeCmd _ _ | .clean => inferInstanceAs (Decidable True)

/-! ## Logs -/

theorem sends_append : sends (log ++ events) node = sends log node + sends events node :=
  List.countP_append

theorem givenUp_append (h : givenUp log node = true) : givenUp (log ++ events) node = true := by
  rw [givenUp, List.any_append, Bool.or_eq_true]
  exact .inl h

theorem limited_iff :
    limited log node = true ↔ ∃ p, .accepted p ∈ log ∧ p.node = node ∧ p.atCmd.retry ≠ 0 := by
  rw [limited, List.any_eq_true]
  constructor
  · rintro ⟨event, hmem, hevent⟩
    cases event with
    | accepted p => exact ⟨p, hmem, by simpa [CmdEvent.limits] using hevent⟩
    | sentCmd => exact nomatch hevent
    | sentData => exact nomatch hevent
    | retried => exact nomatch hevent
  · rintro ⟨p, hmem, hp⟩
    exact ⟨_, hmem, by simpa [CmdEvent.limits] using hp⟩

/-- Events that neither queue a command nor send one. -/
def Quiet (events : List CmdEvent) : Prop :=
  (∀ node, sends events node = 0) ∧ ∀ p, .accepted p ∉ events

theorem quiet_sentData : Quiet [.sentData pos] := ⟨fun _ => rfl, fun _ => by simp⟩

theorem quiet_retried : Quiet [.retried pos] := ⟨fun _ => rfl, fun _ => by simp⟩

theorem Quiet.sends_append (h : Quiet events) : sends (log ++ events) node = sends log node := by
  rw [AtUtils.sends_append, h.1, Nat.add_zero]

theorem Quiet.accepted_mem_append (h : Quiet events) {p : AtCmdList} :
    .accepted p ∈ log ++ events ↔ .accepted p ∈ log := by
  rw [List.mem_append, or_iff_left (h.2 p)]

theorem Quiet.limited_append (h : Quiet events) :
    limited (log ++ events) node = limited log node := by
  rw [Bool.eq_iff_iff, limited_iff, limited_iff]
  simp only [h.accepted_mem_append]

/-! ## The budget -/

/-- Whether the head of the list is on its way. -/
def CmdSide.Awaits (side : CmdSide) : Prop := side.busyFlag ≠ 0 ∧ ¬side.Sends

/-- An entry that has not been touched. -/
def Fresh (log : List CmdEvent) (pos : AtCmdList) : Prop :=
  sends log pos.node = 0 ∧ ∀ p, .accepted p ∈ log → p.node = pos.node →
    p.atCmd.retry = pos.atCmd.retry

/-- The head of the list: what has been sent and what is left make up its retries, with one more
sent while it is on its way. -/
structure HeadBudget (log : List CmdEvent) (side : CmdSide) (pos p : AtCmdList) : Prop where
  sum_le : sends log pos.node + pos.atCmd.retry.toNat ≤ p.atCmd.retry.toNat + 1
  sum_le_of_not_awaits : ¬side.Awaits →
    sends log pos.node + pos.atCmd.retry.toNat ≤ p.atCmd.retry.toNat
  sent : side.Awaits → 0 < sends log pos.node
  left : side.Sends → pos.atCmd.retry ≠ 0
  used : pos.atCmd.retry = 0 → givenUp log pos.node = true

/-- The head of the list keeps its budget, and the entries behind it have not been touched. -/
def QueueBudget (log : List CmdEvent) (side : CmdSide) : List AtCmdList → Prop
  | [] => ¬side.Awaits
  | pos :: rest => (∀ p, .accepted p ∈ log → p.node = pos.node → p.atCmd.retry ≠ 0 →
      HeadBudget log side pos p) ∧ ∀ pos' ∈ rest, Fresh log pos'

/-- **The budget**: what is left of the retry counters, and what has been sent. -/
structure Budgeted (side : CmdSide) (log : List CmdEvent) : Prop where
  accepted_lt : ∀ p, .accepted p ∈ log → p.node < side.nodes
  sends_eq_zero : ∀ node, side.nodes ≤ node → sends log node = 0
  node_lt : ∀ pos ∈ side.writeList, pos.node < side.nodes
  nodup : (side.writeList.map (·.node)).Nodup
  sends_le : ∀ p, .accepted p ∈ log → p.atCmd.retry ≠ 0 → sends log p.node ≤ p.atCmd.retry.toNat
  queue : QueueBudget log side side.writeList

theorem Fresh.append (h : Fresh log pos) (hquiet : Quiet events) : Fresh (log ++ events) pos := by
  refine ⟨hquiet.sends_append.trans h.1, fun p hp => ?_⟩
  exact h.2 p (hquiet.accepted_mem_append.mp hp)

/-- The head keeps its budget as long as it is not sent, is as much on its way as before, and has a
retry left when it is about to be sent. -/
theorem HeadBudget.congr {side side' : CmdSide} {p : AtCmdList} (h : HeadBudget log side pos p)
    (hsends : sends (log ++ events) pos.node = sends log pos.node)
    (hawaits : side'.Awaits ↔ side.Awaits) (hleft : side'.Sends → pos.atCmd.retry ≠ 0) :
    HeadBudget (log ++ events) side' pos p := by
  refine ⟨?_, ?_, ?_, hleft, fun hzero => givenUp_append (h.used hzero)⟩
  · rw [hsends]
    exact h.sum_le
  · rw [hsends, hawaits]
    exact h.sum_le_of_not_awaits
  · rw [hsends, hawaits]
    exact h.sent

/-- Quiet events leave the budget alone. -/
theorem Budgeted.append_quiet {side : CmdSide} (h : Budgeted side log) (hquiet : Quiet events) :
    Budgeted side (log ++ events) := by
  refine ⟨fun p hp => ?_, fun node hnode => ?_, h.node_lt, h.nodup, fun p hp hretry => ?_, ?_⟩
  · exact h.accepted_lt p (hquiet.accepted_mem_append.mp hp)
  · exact hquiet.sends_append.trans (h.sends_eq_zero node hnode)
  · rw [hquiet.sends_append]
    exact h.sends_le p (hquiet.accepted_mem_append.mp hp) hretry
  · have hqueue := h.queue
    cases hlist : side.writeList with
    | nil => rwa [hlist] at hqueue
    | cons pos rest =>
      rw [hlist] at hqueue
      refine ⟨fun p hp hnode hretry => ?_, fun pos' hpos' => (hqueue.2 pos' hpos').append hquiet⟩
      have hhead := hqueue.1 p (hquiet.accepted_mem_append.mp hp) hnode hretry
      exact hhead.congr hquiet.sends_append Iff.rfl hhead.left

/-- A command that has not been touched is in its budget, if it is not taken to be on its way. -/
theorem Fresh.headBudget {side : CmdSide} {p : AtCmdList} (h : Fresh log pos)
    (hp : .accepted p ∈ log) (hnode : p.node = pos.node) (hretry : p.atCmd.retry ≠ 0)
    (hawaits : ¬side.Awaits) : HeadBudget log side pos p := by
  obtain ⟨hsends, hfresh⟩ := h
  have heq := hfresh p hp hnode
  constructor
  · rw [hsends, heq, Nat.zero_add]
    exact Nat.le_succ _
  · intro _
    rw [hsends, heq, Nat.zero_add]
  · exact fun h => absurd h hawaits
  · intro _
    rwa [← heq]
  · exact fun hzero => absurd (heq.trans hzero) hretry

/-- Entries that have not been touched are in the budget when the first of them is not taken to be
on its way. -/
theorem queueBudget_of_fresh {side : CmdSide} (hawaits : ¬side.Awaits)
    (h : ∀ pos ∈ rest, Fresh log pos) : QueueBudget log side rest := by
  cases rest with
  | nil => exact hawaits
  | cons pos rest =>
    obtain ⟨hpos, hrest⟩ := List.forall_mem_cons.mp h
    exact ⟨fun p hp hnode hretry => hpos.headBudget hp hnode hretry hawaits, hrest⟩

/-- The state and the busy flag may change as long as the head is as much on its way as before, and
has a retry left when it is about to be sent. -/
theorem Budgeted.congr {side side' : CmdSide} (h : Budgeted side log)
    (hlist : side'.writeList = side.writeList) (hnodes : side'.nodes = side.nodes)
    (hawaits : side'.Awaits ↔ side.Awaits)
    (hleft : side'.Sends → ∀ pos ∈ side.writeList.head?, limited log pos.node = true →
      pos.atCmd.retry ≠ 0) : Budgeted side' log := by
  refine ⟨hnodes ▸ h.accepted_lt, hnodes ▸ h.sends_eq_zero, ?_, hlist ▸ h.nodup, h.sends_le, ?_⟩
  · rw [hlist, hnodes]
    exact h.node_lt
  · have hqueue := h.queue
    rw [hlist]
    cases hlist' : side.writeList with
    | nil =>
      rw [hlist'] at hqueue
      exact fun hnow => hqueue (hawaits.mp hnow)
    | cons pos rest =>
      rw [hlist'] at hqueue hleft
      refine ⟨fun p hp hnode hretry => ?_, hqueue.2⟩
      rw [← List.append_nil log]
      apply (hqueue.1 p hp hnode hretry).congr (by rw [List.append_nil]) hawaits
      exact fun hnow => hleft hnow pos rfl (limited_iff.mpr ⟨p, hp, hnode, hretry⟩)

/-- The head is removed, and the next command is not taken to be on its way. -/
theorem Budgeted.pop {side side' : CmdSide} (h : Budgeted side log)
    (hlist : side.writeList = pos :: rest) (hlist' : side'.writeList = rest)
    (hnodes : side'.nodes = side.nodes) (hawaits : ¬side'.Awaits) : Budgeted side' log := by
  have hnode := h.node_lt
  have hnodup := h.nodup
  have hqueue := h.queue
  rw [hlist] at hnode hnodup hqueue
  refine ⟨hnodes ▸ h.accepted_lt, hnodes ▸ h.sends_eq_zero, ?_, ?_, h.sends_le, ?_⟩
  · rw [hlist', hnodes]
    exact (List.forall_mem_cons.mp hnode).2
  · rw [hlist']
    exact (List.nodup_cons.mp hnodup).2
  · rw [hlist']
    exact queueBudget_of_fresh hawaits hqueue.2

/-- The head is changed in place. -/
theorem Budgeted.setHead {side side' : CmdSide} {pos' : AtCmdList} (h : Budgeted side log)
    (hlist : side.writeList = pos :: rest) (hlist' : side'.writeList = pos' :: rest)
    (hnodes : side'.nodes = side.nodes) (hnode : pos'.node = pos.node)
    (hhead : ∀ p, limited log pos.node = true → HeadBudget log side pos p →
      HeadBudget log side' pos' p) : Budgeted side' log := by
  have hnode_lt := h.node_lt
  have hnodup := h.nodup
  have hqueue := h.queue
  rw [hlist] at hnode_lt hnodup hqueue
  refine ⟨hnodes ▸ h.accepted_lt, hnodes ▸ h.sends_eq_zero, ?_, ?_, h.sends_le, ?_⟩
  · rw [hlist', hnodes, List.forall_mem_cons, hnode]
    exact List.forall_mem_cons.mp hnode_lt
  · rw [hlist', List.map_cons, hnode]
    exact hnodup
  · rw [hlist']
    refine ⟨fun p hp hpnode hretry => ?_, hqueue.2⟩
    rw [hnode] at hpnode
    exact hhead p (limited_iff.mpr ⟨p, hp, hpnode, hretry⟩) (hqueue.1 p hp hpnode hretry)

/-- An OK that is counted leaves the budget of the head alone. -/
theorem HeadBudget.move {side side' : CmdSide} {p : AtCmdList} (h : HeadBudget log side pos p)
    (hbusy : side'.busyFlag = side.busyFlag) (hsends : ¬side.Sends) (hsends' : ¬side'.Sends) :
    HeadBudget log side' (decDelCnt pos) p := by
  have hawaits : side'.Awaits ↔ side.Awaits := by
    rw [CmdSide.Awaits, CmdSide.Awaits, hbusy]
    exact and_congr_right fun _ => iff_of_true hsends' hsends
  exact ⟨h.sum_le, fun hnow => h.sum_le_of_not_awaits fun hbefore => hnow (hawaits.mpr hbefore),
    fun hnow => h.sent (hawaits.mp hnow), fun hnow => absurd hnow hsends', h.used⟩

/-- A retry pays for sending the command once more. -/
theorem HeadBudget.decRetry {side side' : CmdSide} {p : AtCmdList} (h : HeadBudget log side pos p)
    (hleft : pos.atCmd.retry ≠ 0) (hawaits : ¬side'.Awaits)
    (hsends : side'.Sends → pos.atCmd.retry ≠ 1) (hlog : .retried pos ∈ log) :
    HeadBudget log side' (AtUtilsContext.decRetry pos) p := by
  have hdec : (AtUtilsContext.decRetry pos).atCmd.retry.toNat + 1 = pos.atCmd.retry.toNat :=
    Words.toNat_sub_one hleft
  have hsum : sends log pos.node + (AtUtilsContext.decRetry pos).atCmd.retry.toNat ≤
      p.atCmd.retry.toNat := by
    have hle := h.sum_le
    omega
  refine ⟨hsum.trans (Nat.le_succ _), fun _ => hsum, fun hnow => absurd hnow hawaits, ?_, ?_⟩
  · exact fun hnow hzero => hsends hnow (Words.sub_one_eq_zero.mp hzero)
  · -- a counter that is 0 now was 1 before
    intro hzero
    rw [givenUp, List.any_eq_true]
    exact ⟨_, hlog, by simpa [CmdEvent.givesUp, AtUtilsContext.decRetry] using
      Words.sub_one_eq_zero.mp hzero⟩

theorem sends_singleton_self : sends [.sentCmd pos] pos.node = 1 := by
  simp [sends, CmdEvent.sends]

theorem sends_singleton_of_ne (h : pos.node ≠ node) : sends [.sentCmd pos] node = 0 := by
  simp [sends, CmdEvent.sends, h]

/-- The head is sent, and is on its way. -/
theorem Budgeted.send {side side' : CmdSide} (h : Budgeted side log)
    (hlist : side.writeList = pos :: rest) (hlist' : side'.writeList = pos :: rest)
    (hnodes : side'.nodes = side.nodes) (hsends : side.Sends) (hawaits : side'.Awaits) :
    Budgeted side' (log ++ [.sentCmd pos]) := by
  have hnode_lt := h.node_lt
  have hnodup := h.nodup
  have hqueue := h.queue
  rw [hlist] at hnode_lt hnodup hqueue
  have hnot : ¬side.Awaits := fun hnow => hnow.2 hsends
  have hmem : ∀ p, .accepted p ∈ log ++ [.sentCmd pos] ↔ .accepted p ∈ log := by simp
  have hother : ∀ {node}, pos.node ≠ node → sends (log ++ [.sentCmd pos]) node = sends log node :=
    fun hne => by rw [sends_append, sends_singleton_of_ne hne, Nat.add_zero]
  have hself : sends (log ++ [.sentCmd pos]) pos.node = sends log pos.node + 1 := by
    rw [sends_append, sends_singleton_self]
  have hpos : pos.node < side.nodes := (List.forall_mem_cons.mp hnode_lt).1
  refine ⟨fun p hp => ?_, fun node hnode => ?_, ?_, ?_, fun p hp hretry => ?_, ?_⟩
  · rw [hnodes]
    exact h.accepted_lt p ((hmem p).mp hp)
  · rw [hnodes] at hnode
    rw [hother (by omega)]
    exact h.sends_eq_zero node hnode
  · rw [hlist', hnodes]
    exact hnode_lt
  · rw [hlist']
    exact hnodup
  · have hp' := (hmem p).mp hp
    by_cases hnode : p.node = pos.node
    · -- the budget of the head has room for this time
      have hbudget := hqueue.1 p hp' hnode hretry
      have hsum := hbudget.sum_le_of_not_awaits hnot
      have hleft : 0 < pos.atCmd.retry.toNat :=
        Nat.pos_of_ne_zero fun h0 => hbudget.left hsends (UInt8.toNat_inj.mp h0)
      rw [hnode, hself]
      omega
    · rw [hother (Ne.symm hnode)]
      exact h.sends_le p hp' hretry
  · rw [hlist']
    refine ⟨fun p hp hnode hretry => ?_, fun pos' hpos' => ?_⟩
    · have hbudget := hqueue.1 p ((hmem p).mp hp) hnode hretry
      have hsum := hbudget.sum_le_of_not_awaits hnot
      refine ⟨?_, fun hnow => absurd hawaits hnow, fun _ => ?_, fun hnow => ?_,
        fun hzero => givenUp_append (hbudget.used hzero)⟩
      · rw [hself]
        omega
      · rw [hself]
        exact Nat.succ_pos _
      · exact absurd hnow hawaits.2
    · -- the entries behind the head have other numbers
      have hne : pos.node ≠ pos'.node := fun heq =>
        (List.nodup_cons.mp hnodup).1 (List.mem_map.mpr ⟨pos', hpos', heq.symm⟩)
      obtain ⟨hzero, hfresh⟩ := hqueue.2 pos' hpos'
      exact ⟨(hother hne).trans hzero, fun p hp => hfresh p ((hmem p).mp hp)⟩

theorem sends_append_accepted : sends (log ++ [.accepted pos]) node = sends log node := by
  rw [sends_append]
  rfl

theorem mem_append_accepted {p : AtCmdList} :
    .accepted p ∈ log ++ [.accepted pos] ↔ .accepted p ∈ log ∨ p = pos := by
  simp

/-- Entries in the list have smaller numbers than a new one. -/
theorem Budgeted.mem_of_mem_append {side : CmdSide} {new p : AtCmdList} (h : Budgeted side log)
    (hnew : new.node = side.nodes) (hpos : pos ∈ side.writeList)
    (hp : .accepted p ∈ log ++ [.accepted new]) (hnode : p.node = pos.node) :
    .accepted p ∈ log := by
  rcases mem_append_accepted.mp hp with hp | rfl
  · exact hp
  · have hlt := h.node_lt pos hpos
    omega

/-- A new entry has not been touched. -/
theorem Budgeted.fresh_new {side : CmdSide} {new : AtCmdList} (h : Budgeted side log)
    (hnew : new.node = side.nodes) : Fresh (log ++ [.accepted new]) new := by
  refine ⟨sends_append_accepted.trans (h.sends_eq_zero _ hnew.ge), fun p hp hnode => ?_⟩
  rcases mem_append_accepted.mp hp with hp | rfl
  · have hlt := h.accepted_lt p hp
    omega
  · rfl

/-- The queue keeps its budget when an entry is added at its end. -/
theorem Budgeted.queue_append {side side' : CmdSide} {new : AtCmdList} (h : Budgeted side log)
    (hnew : new.node = side.nodes) (hstate : side'.state = side.state)
    (hbusy : side'.busyFlag = side.busyFlag) :
    QueueBudget (log ++ [.accepted new]) side' (side.writeList ++ [new]) := by
  have hsends : side'.Sends ↔ side.Sends := by
    rw [CmdSide.Sends, CmdSide.Sends, hstate]
  have hawaits : side'.Awaits ↔ side.Awaits := by
    rw [CmdSide.Awaits, CmdSide.Awaits, hsends, hbusy]
  have hqueue := h.queue
  cases hlist : side.writeList with
  | nil =>
    rw [hlist] at hqueue
    apply queueBudget_of_fresh (fun hnow => hqueue (hawaits.mp hnow))
    exact List.forall_mem_singleton.mpr (h.fresh_new hnew)
  | cons pos rest =>
    rw [hlist] at hqueue
    refine ⟨fun p hp hnode hretry => ?_, fun pos' hpos' => ?_⟩
    · have hpos : pos ∈ side.writeList := hlist ▸ List.mem_cons_self
      have hhead := hqueue.1 p (h.mem_of_mem_append hnew hpos hp hnode) hnode hretry
      apply hhead.congr sends_append_accepted hawaits
      exact fun hnow => hhead.left (hsends.mp hnow)
    · rcases List.mem_append.mp hpos' with hpos' | hpos'
      · obtain ⟨hsent, hretry⟩ := hqueue.2 pos' hpos'
        refine ⟨sends_append_accepted.trans hsent, fun p hp hnode => ?_⟩
        have hmem : pos' ∈ side.writeList := hlist ▸ List.mem_cons_of_mem _ hpos'
        exact hretry p (h.mem_of_mem_append hnew hmem hp hnode) hnode
      · rw [List.mem_singleton.mp hpos']
        exact h.fresh_new hnew

/-- A command is queued under a new number. -/
theorem Budgeted.accept {side side' : CmdSide} {new : AtCmdList} (h : Budgeted side log)
    (hnew : new.node = side.nodes) (hlist' : side'.writeList = side.writeList ++ [new])
    (hnodes : side'.nodes = side.nodes + 1) (hstate : side'.state = side.state)
    (hbusy : side'.busyFlag = side.busyFlag) : Budgeted side' (log ++ [.accepted new]) := by
  refine ⟨fun p hp => ?_, fun node hnode => ?_, fun pos hpos => ?_, ?_, fun p hp hretry => ?_, ?_⟩
  · rw [hnodes]
    rcases mem_append_accepted.mp hp with hp | rfl
    · exact (h.accepted_lt p hp).trans (Nat.lt_succ_self _)
    · rw [hnew]
      exact Nat.lt_succ_self _
  · rw [sends_append_accepted]
    exact h.sends_eq_zero node (by omega)
  · rw [hlist', List.mem_append, List.mem_singleton] at hpos
    rw [hnodes]
    rcases hpos with hpos | rfl
    · exact (h.node_lt pos hpos).trans (Nat.lt_succ_self _)
    · rw [hnew]
      exact Nat.lt_succ_self _
  · rw [hlist', List.map_append, List.map_singleton]
    refine List.nodup_append.mpr ⟨h.nodup, by simp, fun node hnode node' hnode' => ?_⟩
    obtain ⟨pos, hpos, rfl⟩ := List.mem_map.mp hnode
    have hlt := h.node_lt pos hpos
    rw [List.mem_singleton.mp hnode', hnew]
    exact hlt.ne
  · rw [sends_append_accepted]
    rcases mem_append_accepted.mp hp with hp | rfl
    · exact h.sends_le p hp hretry
    · rw [h.sends_eq_zero _ hnew.ge]
      exact Nat.zero_le _
  · rw [hlist']
    exact h.queue_append hnew hstate hbusy

/-! ## Calls -/

theorem budgeted_cleaned (h : Budgeted context.cmdSide log) :
    Budgeted context.cmdSide.cleaned log :=
  ⟨h.accepted_lt, h.sends_eq_zero, by simp [CmdSide.cleaned], by simp [CmdSide.cleaned],
    h.sends_le, fun hnow => hnow.1 rfl⟩

/-- A head that is about to be sent has a retry left. -/
theorem Budgeted.left {side : CmdSide} (h : Budgeted side log) (hsends : side.Sends) :
    ∀ pos ∈ side.writeList.head?, limited log pos.node = true → pos.atCmd.retry ≠ 0 := by
  intro pos hpos hlimited
  obtain ⟨rest, hlist⟩ : ∃ rest, side.writeList = pos :: rest :=
    ⟨_, (List.cons_head?_tail hpos).symm⟩
  obtain ⟨p, hp, hnode, hretry⟩ := limited_iff.mp hlimited
  have hqueue := h.queue
  rw [hlist] at hqueue
  exact (hqueue.1 p hp hnode hretry).left hsends

/-- A head that has not been given up has a retry left. -/
theorem Budgeted.retry_ne_zero (h : Budgeted context.cmdSide log) (hkept : Kept (context, log)) :
    ∀ pos ∈ context.writeList.head?, limited log pos.node = true → pos.atCmd.retry ≠ 0 := by
  intro pos hpos hlimited hzero
  obtain ⟨rest, hlist⟩ : ∃ rest, context.writeList = pos :: rest :=
    ⟨_, (List.cons_head?_tail hpos).symm⟩
  obtain ⟨p, hp, hnode, hretry⟩ := limited_iff.mp hlimited
  have hqueue := h.queue
  rw [writeList_cmdSide, hlist] at hqueue
  have hused := (hqueue.1 p hp hnode hretry).used hzero
  exact nomatch hused.symm.trans (hkept pos hpos hlimited)

/-- Between two states in which the head is not about to be sent nothing changes. -/
theorem Budgeted.move {side side' : CmdSide} (h : Budgeted side log)
    (hlist : side'.writeList = side.writeList) (hnodes : side'.nodes = side.nodes)
    (hbusy : side'.busyFlag ≠ 0 ↔ side.busyFlag ≠ 0) (hsends : ¬side.Sends)
    (hsends' : ¬side'.Sends) : Budgeted side' log :=
  h.congr hlist hnodes (and_congr hbusy (iff_of_true hsends' hsends))
    fun hnow => absurd hnow hsends'

/-- A head that is not on its way may be about to be sent when it has a retry left. -/
theorem Budgeted.ready {side side' : CmdSide} (h : Budgeted side log)
    (hlist : side'.writeList = side.writeList) (hnodes : side'.nodes = side.nodes)
    (hawaits : ¬side.Awaits) (hawaits' : ¬side'.Awaits)
    (hleft : ∀ pos ∈ side.writeList.head?, limited log pos.node = true → pos.atCmd.retry ≠ 0) :
    Budgeted side' log :=
  h.congr hlist hnodes (iff_of_false hawaits' hawaits) fun _ => hleft

/-- A retry is taken of the head. -/
theorem Budgeted.takeRetry {side side' : CmdSide} (h : Budgeted side log)
    (hlist : side.writeList = pos :: rest) (hlist' : side'.writeList = decRetry pos :: rest)
    (hnodes : side'.nodes = side.nodes)
    (hleft : limited log pos.node = true → pos.atCmd.retry ≠ 0) (hawaits : ¬side'.Awaits)
    (hsends : side'.Sends → pos.atCmd.retry ≠ 1) : Budgeted side' (log ++ [.retried pos]) := by
  refine (h.append_quiet quiet_retried).setHead hlist hlist' hnodes rfl fun p hlimited hhead => ?_
  rw [quiet_retried.limited_append] at hlimited
  exact hhead.decRetry (hleft hlimited) hawaits hsends (by simp)

/-- A failure takes a retry, and the command with its last one. -/
theorem Budgeted.fail {cnt : UInt8} (h : Budgeted context.cmdSide log)
    (hlist : context.writeList = pos :: rest)
    (hleft : limited log pos.node = true → pos.atCmd.retry ≠ 0) :
    Budgeted { context.cmdSide with
      writeList := if pos.atCmd.retry - 1 = 0 then rest else decRetry pos :: rest
      atCmdNodeCnt := cnt
      state := .write } (log ++ [.retried pos]) := by
  have hawaits : ∀ {list : List AtCmdList}, ¬CmdSide.Awaits
      { context.cmdSide with writeList := list, atCmdNodeCnt := cnt, state := .write } :=
    fun hnow => hnow.2 (.inl rfl)
  by_cases hlast : pos.atCmd.retry - 1 = 0
  · rw [if_pos hlast]
    exact (h.append_quiet quiet_retried).pop hlist rfl rfl hawaits
  · rw [if_neg hlast]
    refine h.takeRetry hlist rfl rfl hleft hawaits fun _ hone => ?_
    exact hlast (Words.sub_one_eq_zero.mpr hone)

/-- An OK is taken off those awaited, and the command with its last one. -/
theorem Budgeted.answer {cnt : UInt8} (h : Budgeted context.cmdSide log)
    (hlist : context.writeList = pos :: rest)
    (hstate : context.state = .readOk ∨ context.state = .readConnectOk)
    (hturn : context.busyFlag ≠ 0 →
      (pos.delCnt - 1 = 0 ↔ context.busyFlag = 2 ∨ pos.atCmd.dataLen = 0)) :
    Budgeted { context.cmdSide with
      writeList := if pos.delCnt - 1 = 0 then rest else decDelCnt pos :: rest
      atCmdNodeCnt := cnt
      state := .idle
      busyFlag :=
        if context.busyFlag = 2 ∨ pos.atCmd.dataLen = 0 then 0 else context.busyFlag } log := by
  have hnot : ¬context.cmdSide.Sends := by
    rcases hstate with hstate | hstate <;> simp [CmdSide.Sends, cmdSide, hstate]
  by_cases hlast : pos.delCnt - 1 = 0
  · -- the command is complete, and nothing is on its way any more
    rw [if_pos hlast]
    refine h.pop hlist rfl rfl fun hnow => hnow.1 ?_
    by_cases hbusy : context.busyFlag = 0
    · simp [hbusy]
    · exact if_pos ((hturn hbusy).mp hlast)
  · rw [if_neg hlast]
    refine h.setHead hlist rfl rfl rfl fun p _ hhead => ?_
    refine hhead.move ?_ hnot (by simp [CmdSide.Sends])
    by_cases hbusy : context.busyFlag = 0
    · simp [cmdSide, hbusy]
    · rw [if_neg fun hend => hlast ((hturn hbusy).mpr hend)]
      rfl

/-- **One call** under the condition keeps the budget. -/
theorem CmdStep.budgeted {side : CmdSide} (hstep : CmdStep context op out side)
    (hkept : RetryKept (context, log) op) (h : Budgeted context.cmdSide log) :
    Budgeted side (log ++ out.events) := by
  cases hstep with
  | @calm _ _ state hevents _ hstate =>
    rw [hevents, List.append_nil]
    rcases hstate with rfl | ⟨⟨hwrite, hwriteCmd⟩, hstate⟩
    · exact h
    · refine h.move rfl rfl Iff.rfl (fun hnow => hnow.elim hwrite hwriteCmd) ?_
      rcases hstate with rfl | rfl | rfl <;> simp [CmdSide.Sends]
  | accepts => exact h.accept rfl rfl rfl rfl rfl
  | cleans hevents =>
    rw [hevents, List.append_nil]
    exact budgeted_cleaned h
  | tags hstate hparsing hpeek hreport =>
    -- a tag may lead to the states that send
    subst hreport
    rw [events_process, events_none, List.append_nil]
    have hnot : ¬context.cmdSide.Sends := by simp [CmdSide.Sends, cmdSide, hstate]
    by_cases hsends : context.headState = .write ∨ context.headState = .writeCmd
    · obtain ⟨hbusy, hleft⟩ := (hkept.1 hparsing hpeek).2.2 hstate hsends
      exact h.ready rfl rfl (fun hnow => hnow.1 hbusy) (fun hnow => hnow.2 hsends)
        (h.retry_ne_zero hleft)
    · exact h.move rfl rfl Iff.rfl hnot hsends
  | prompted hstate hreport =>
    subst hreport
    rw [events_process, events_none, List.append_nil]
    exact h.move rfl rfl Iff.rfl (by simp [CmdSide.Sends, cmdSide, hstate])
      (by simp [CmdSide.Sends])
  | begins hstate hfifo hbusy =>
    rw [events_process, events_none, List.append_nil]
    exact h.ready rfl rfl (fun hnow => hnow.1 hbusy) (fun hnow => hnow.1 hbusy)
      (h.retry_ne_zero (hkept.2.1 hstate hfifo).1)
  | writes hstate =>
    rw [events_process, events_none, List.append_nil]
    exact h.ready rfl rfl (fun hnow => hnow.2 (.inl hstate)) (fun hnow => hnow.2 (.inr rfl))
      (h.left (.inl hstate))
  | skips hstate hcb =>
    -- a command that is not written would be taken to be on its way
    exact absurd (hkept.2.2.1 hstate) (by simp [hcb])
  | @sends _ _ pos rest hstate _ hlist =>
    exact h.send hlist hlist rfl (.inr hstate) ⟨one_ne_zero, by simp [CmdSide.Sends]⟩
  | @sendsData _ _ pos rest hstate hcb hlist =>
    refine Budgeted.append_quiet ?_ quiet_sentData
    exact h.move rfl rfl (iff_of_true two_ne_zero (hkept.2.2.2 hstate hcb))
      (by simp [CmdSide.Sends, cmdSide, hstate]) (by simp [CmdSide.Sends])
  | @timesOut _ _ report pos rest hstate hfifo hlist hlate hevents =>
    rw [events_process, hevents]
    have hleft := h.retry_ne_zero (hkept.2.1 hstate hfifo).1 pos (by simp [hlist])
    refine h.takeRetry hlist rfl rfl hleft (fun hnow => hnow.1 rfl) ?_
    -- after the last retry the framework stays idle
    intro hsends hone
    simp [CmdSide.Sends, hone] at hsends
  | @fails _ _ report pos rest hstate hparsing hpeek hlist hevents =>
    rw [events_process, hevents]
    exact h.fail hlist
      (h.retry_ne_zero ((hkept.1 hparsing hpeek).1 hstate).1 pos (by simp [hlist]))
  | @answers _ _ report pos rest hstate hparsing hpeek hlist hevents =>
    rw [events_process, hevents, List.append_nil]
    exact h.answer hlist hstate ((hkept.1 hparsing hpeek).2.1 hstate pos (by simp [hlist]))

/-- A retry is taken of the head of the list, which under the condition has one left and is on its
way if it is the last one. -/
theorem CmdStep.retried {side : CmdSide} (hstep : CmdStep context op out side)
    (hkept : RetryKept (context, log) op) (h : Budgeted context.cmdSide log)
    (hmem : .retried pos ∈ out.events) :
    out.events = [.retried pos] ∧ (∃ rest, context.writeList = pos :: rest) ∧
      (limited log pos.node = true →
        pos.atCmd.retry ≠ 0 ∧ (out.ret = .readClosed → context.cmdSide.Awaits)) := by
  cases hstep with
  | calm hevents | cleans hevents => simp [hevents] at hmem
  | tags _ _ _ hreport | prompted _ hreport =>
    subst hreport
    exact nomatch hmem
  | accepts | begins | writes => simp [AtOut.events, Report.none] at hmem
  | skips | sends | sendsData => simp [AtOut.events, Report.none] at hmem
  | answers _ _ _ _ hevents => simp [AtOut.events, hevents] at hmem
  | @timesOut _ _ report head rest hstate hfifo hlist hlate hevents hret =>
    obtain rfl : pos = head := by simpa [AtOut.events, hevents] using hmem
    obtain ⟨hleft, hlast⟩ := hkept.2.1 hstate hfifo
    refine ⟨hevents, ⟨rest, hlist⟩, fun hlimited => ?_⟩
    refine ⟨h.retry_ne_zero hleft pos (by simp [hlist]) hlimited, fun hclosed => ?_⟩
    refine ⟨?_, by simp [CmdSide.Sends, cmdSide, hstate]⟩
    exact hlast pos (by simp [hlist]) hlate hlimited (Words.sub_one_eq_zero.mp (hret.mp hclosed))
  | @fails _ _ report head rest hstate hparsing hpeek hlist hevents hret =>
    obtain rfl : pos = head := by simpa [AtOut.events, hevents] using hmem
    obtain ⟨hleft, hlast⟩ := (hkept.1 hparsing hpeek).1 hstate
    refine ⟨hevents, ⟨rest, hlist⟩, fun hlimited => ?_⟩
    refine ⟨h.retry_ne_zero hleft pos (by simp [hlist]) hlimited, fun hclosed => ⟨?_, ?_⟩⟩
    · exact hlast pos (by simp [hlist]) rfl hlimited (Words.sub_one_eq_zero.mp (hret.mp hclosed))
    · rcases hstate with hstate | hstate <;> simp [CmdSide.Sends, cmdSide, hstate]

/-- What a call does is within the retries of each command that was queued with any: after it the
command has not been sent more often than that; and when the call takes a retry of it, there was one
left, and the call reports the connection closed only if the command had been sent. -/
def WithinRetries (x : AtUtilsContext config × List CmdEvent) (op : AtOp) : Prop :=
  ∀ x' out, logged AtOut.events atNext x op = some (x', out) →
    ∀ p, .accepted p ∈ x'.2 → p.atCmd.retry ≠ 0 →
      sends x'.2 p.node ≤ p.atCmd.retry.toNat ∧
      ∀ pos, .retried pos ∈ out.events → pos.node = p.node →
        pos.atCmd.retry ≠ 0 ∧ (out.ret = .readClosed → 0 < sends x.2 p.node)

theorem withinRetries_of_budgeted {x : AtUtilsContext config × List CmdEvent}
    (h : Budgeted x.1.cmdSide x.2) (hkept : RetryKept x op) : WithinRetries x op := by
  obtain ⟨context, log⟩ := x
  rintro ⟨context', log'⟩ out hnext p hp hretry
  obtain ⟨hcall, hlog⟩ := logged_eq_some.mp hnext
  have hstep := cmdStep_of_atStep (atNext_eq_some.mp hcall)
  dsimp only at h hlog hstep hp ⊢
  subst hlog
  refine ⟨(hstep.budgeted hkept h).sends_le p hp hretry, fun pos hmem hnode => ?_⟩
  obtain ⟨hevents, ⟨rest, hlist⟩, hlimited⟩ := hstep.retried hkept h hmem
  have hp' : .accepted p ∈ log := by simpa [hevents] using hp
  obtain ⟨hleft, hclosed⟩ := hlimited (limited_iff.mpr ⟨p, hp', hnode.symm, hretry⟩)
  refine ⟨hleft, fun hret => ?_⟩
  have hqueue := h.queue
  rw [writeList_cmdSide, hlist] at hqueue
  rw [← hnode]
  exact (hqueue.1 p hp' hnode.symm hretry).sent (hclosed hret)

/-- **Within the retries**: in every run whose calls keep the retries, what each call does is within
the retries of each command. -/
theorem sends_within_retries (config : AtConfig) {ops : List AtOp}
    (hops : EachStep (logged AtOut.events atNext) RetryKept (hyAtUtilsCreate config, []) ops) :
    EachStep (logged AtOut.events atNext) WithinRetries (hyAtUtilsCreate config, []) ops := by
  apply eachStep_of_cmdStep Budgeted ?_ CmdStep.budgeted ?_ hops
  · exact ⟨by simp, fun _ _ => rfl, by simp [cmdSide, hyAtUtilsCreate], List.nodup_nil, by simp,
      fun hnow => hnow.1 rfl⟩
  · intro x op h hkept
    exact withinRetries_of_budgeted h hkept

/-- A framework that catches OK and ERROR. -/
def answerConfig : AtConfig :=
  { writeCb := true
    handleFrameCb := true
    catchStr := [⟨6, [79, 75]⟩, ⟨12, [69, 82, 82, 79, 82]⟩]
    fifoLen := 64
    atCmdNum := 0
    isCmdOk := 0 }

/-- A command with two retries whose first answer is overdue and whose second one comes. -/
theorem sends_within_retries_once_overdue :
    EachStep (logged AtOut.events atNext) WithinRetries (hyAtUtilsCreate answerConfig, [])
      ([.writeCmd ⟨[65, 84], [], 0, 1000, 2⟩ true] ++ List.replicate 3 (.process 5 5) ++
        List.replicate 2 (.process 20 20) ++ List.replicate 3 (.process 2000 2000) ++
        [.process 2020 2020, .putData [79, 75]] ++ List.replicate 5 (.process 2020 2020)) :=
  sends_within_retries answerConfig (by decide +kernel)

/-- A command with one retry is queued when the clock is at 5000: the first call reports the
connection closed before the command has been sent. The calls after it send the command twice all
the same, and take a retry of it when none is left. -/
theorem closed_before_sent :
    ∃ context outs,
      run atNext (hyAtUtilsCreate answerConfig)
        ([.writeCmd ⟨[65, 84], [], 0, 1000, 1⟩ true] ++ List.replicate 4 (.process 5000 5000) ++
          List.replicate 2 (.process 5020 5020) ++ List.replicate 3 (.process 7000 7000)) =
          some (context, outs) ∧
      outs.take 2 = [.writeCmd (some ⟨0, ⟨[65, 84], [], 0, 1000, 1⟩, 1⟩),
        .process ⟨.readClosed, [], [.retried ⟨0, ⟨[65, 84], [], 0, 1000, 1⟩, 1⟩]⟩] ∧
      (outs.drop 2).flatMap AtOut.events = [.sentCmd ⟨0, ⟨[65, 84], [], 0, 1000, 0⟩, 1⟩,
        .retried ⟨0, ⟨[65, 84], [], 0, 1000, 0⟩, 1⟩,
        .sentCmd ⟨0, ⟨[65, 84], [], 0, 1000, 255⟩, 1⟩] := by
  refine ⟨_, _, rfl, ?_, ?_⟩
  all_goals decide +kernel

end HyUtils.AtUtils
