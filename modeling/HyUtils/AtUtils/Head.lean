import HyUtils.AtUtils.Steps
import HyUtils.Foundation.Words

/-!
# The head of the command list

`HyAtUtilsProcess` takes the first entry of the command list in seven states, and tests whether
there is one in only one of them. The bytes of the module decide which state comes next, so an
answer that nobody asked for makes it take the context itself for a command.

## Main definitions

* `HeadKept`: a call recognises no answer while no command is queued, and does not drop the last one

## Main results

* `process_head_nonempty`: in runs of such calls the head is used only of a list that has one
* `fault_of_not_headKept`: any other call is followed by a use of an empty list's head within three
  calls
* `unsolicited_ok_faults`: an OK that nobody asked for
-/

namespace HyUtils.AtUtils

open Runs AtUtilsContext

variable {config : AtConfig} {context context' : AtUtilsContext config} {op : AtOp} {out : AtOut}

/-- A call of `HyAtUtilsProcess` recognises no tag whose state handles a command while none is
queued, and its answer to a failure does not drop the last command. -/
def HeadKept (context : AtUtilsContext config) : AtOp → Prop
  | .process _ _ => context.parsingFlag = false → context.peek ≠ [] →
      (context.state = .readHead → context.headState.usesHead = true → context.writeList ≠ []) ∧
      (context.state = .readError ∨ context.state = .readFaild →
        context.writeList.map (·.atCmd.retry) ≠ [1])
  | _ => True

instance HeadKept.decidable (context : AtUtilsContext config) :
    ∀ op, Decidable (HeadKept context op)
  | .process _ _ => inferInstanceAs (Decidable (_ = _ → _ ≠ _ →
      (_ = _ → _ = _ → _ ≠ _) ∧ (_ = _ ∨ _ = _ → _ ≠ _)))
  | .putData _ | .writeCmd _ _ | .clean => inferInstanceAs (Decidable True)

/-- Where a command is being handled there is one. -/
def HeadPresent (context : AtUtilsContext config) : Prop :=
  context.state.usesHead = true → context.writeList ≠ []

/-- **One call**: a step under the condition leaves a head where one will be used. -/
theorem CmdStep.headPresent {side : CmdSide} (hstep : CmdStep context op out side)
    (hkept : HeadKept context op) (h : HeadPresent context) :
    side.state.usesHead = true → side.writeList ≠ [] := by
  cases hstep with
  | calm _ _ hstate =>
    obtain rfl | ⟨-, rfl | rfl | rfl⟩ := hstate
    · exact h
    · exact fun hhead => nomatch hhead
    · exact fun hhead => nomatch hhead
    · exact fun hhead => nomatch hhead
  | accepts => simp
  | cleans => exact fun hhead => nomatch hhead
  | tags hstate hparsing hpeek => exact (hkept hparsing hpeek).1 hstate
  | prompted hstate => exact fun _ => h (by rw [hstate]; rfl)
  | begins _ _ _ hlist => exact fun _ => hlist
  | writes hstate => exact fun _ => h (by rw [hstate]; rfl)
  | skips => exact fun hhead => nomatch hhead
  | sends => exact fun hhead => nomatch hhead
  | sendsData => exact fun hhead => nomatch hhead
  | timesOut => exact fun _ => List.cons_ne_nil _ _
  | @fails _ _ _ pos rest hstate hparsing hpeek hlist =>
    intro _
    dsimp only
    split_ifs with hlast
    · -- the last command is not dropped
      rintro rfl
      apply (hkept hparsing hpeek).2 hstate
      rw [hlist, ← Words.sub_one_eq_zero.mp hlast]
      rfl
    · exact List.cons_ne_nil _ _
  | answers => exact fun hhead => nomatch hhead

/-- **The head is there when it is used**: in every run in which no answer is recognised while no
command is queued, and no failure drops the last command, no call uses the head of an empty list. -/
theorem process_head_nonempty (config : AtConfig) {ops : List AtOp}
    (hops : EachStep atNext HeadKept (hyAtUtilsCreate config) ops) :
    EachStep atNext (fun context op => atStep context op ≠ .error .emptyList)
      (hyAtUtilsCreate config) ops := by
  refine eachStep_of_eachStep HeadPresent ?_ ?_ (fun hhead => nomatch hhead) hops
  · intro context op h _ hfault
    rcases atStep_eq_error hfault with hfault | ⟨-, hlist, hhead⟩
    · exact nomatch hfault
    · exact h hhead hlist
  · intro context op context' out h hkept hstep
    exact (cmdStep_of_atStep (atNext_eq_some.mp hstep)).headPresent hkept h

/-- A call in a state that handles a command, with none queued and bytes left to read, uses the head
of the empty list, or leads there. -/
theorem fault_of_usesHead {t t' : UInt32} (hcb : config.writeCb = true)
    (hlist : context.writeList = []) (hhead : context.state.usesHead = true)
    (hbytes : context.state = .write ∨ context.parsingFlag = false ∧ context.peek ≠ []) :
    ∃ n ≤ 1, ∃ context' outs,
      run atNext context (List.replicate n (.process t t')) = some (context', outs) ∧
        atStep context' (.process t t') = .error .emptyList := by
  cases hstate : context.state
  case readError | readFaild =>
    obtain ⟨hparsing, hpeek⟩ := hbytes.resolve_left (by simp [hstate])
    have hresume := resume_of_not_parsing hparsing
    have hswitch : context.resume.readSwitch (padded context.peek) context.peek.length .none =
        .error .emptyList := by
      simp only [hresume, readSwitch, hstate, readFault, hlist]
      rfl
    refine ⟨0, by simp, context, [], rfl, ?_⟩
    simp only [atStep, hyAtUtilsProcess, hstate, readHandle_of_error hpeek hswitch]
    rfl
  case readOk | readConnectOk =>
    obtain ⟨hparsing, hpeek⟩ := hbytes.resolve_left (by simp [hstate])
    have hresume := resume_of_not_parsing hparsing
    have hswitch : context.resume.readSwitch (padded context.peek) context.peek.length .none =
        .error .emptyList := by
      simp only [hresume, readSwitch, hstate, readAnswer, hlist]
      rfl
    refine ⟨0, by simp, context, [], rfl, ?_⟩
    simp only [atStep, hyAtUtilsProcess, hstate, readHandle_of_error hpeek hswitch]
    rfl
  case readSend =>
    obtain ⟨hparsing, hpeek⟩ := hbytes.resolve_left (by simp [hstate])
    have hresume := resume_of_not_parsing hparsing
    have hswitch : context.resume.readSwitch (padded context.peek) context.peek.length .none =
        .ok ({ context with state := .writeData }, .none, true) := by
      simp only [hresume, readSwitch, hstate]
    have hstep : atNext context (.process t t') =
        some ({ context with state := .writeData }.updateOut true, .process .none) := by
      rw [atNext_eq_some]
      simp only [atStep, hyAtUtilsProcess, hstate, readHandle_of_ok hpeek hswitch hparsing]
      rfl
    refine ⟨1, le_rfl, _, _, run_cons_eq_some.mpr ⟨_, _, [], hstep, rfl, rfl⟩, ?_⟩
    simp only [atStep, hyAtUtilsProcess, updateOut, if_true, writeHandle, hcb, hlist]
    rfl
  case write =>
    have hstep : atNext context (.process t t') =
        some ({ context with state := .writeCmd }, .process .none) := by
      rw [atNext_eq_some]
      simp only [atStep, hyAtUtilsProcess, hstate, writeHandle]
      rfl
    refine ⟨1, le_rfl, _, _, run_cons_eq_some.mpr ⟨_, _, [], hstep, rfl, rfl⟩, ?_⟩
    simp only [atStep, hyAtUtilsProcess, writeHandle, hcb, hlist]
    rfl
  case writeCmd | writeData =>
    refine ⟨0, by simp, context, [], rfl, ?_⟩
    simp only [atStep, hyAtUtilsProcess, hstate, writeHandle, hcb, hlist]
    rfl
  all_goals simp [hstate, AtState.usesHead] at hhead

/-- The last command fails for the last time. -/
theorem readFault_last {pos : AtCmdList} (hparsing : context.parsingFlag = false)
    (hlist : context.writeList = [pos]) (hone : pos.atCmd.retry = 1) :
    ∃ context' report, context.readFault .none = .ok (context', report) ∧
      context'.writeList = [] ∧ context'.state = .write ∧ context'.parsingFlag = false := by
  simp only [readFault, hlist, hone]
  exact ⟨_, _, rfl, rfl, rfl, hparsing⟩

/-- **The condition is needed**: a call that breaks it is followed within three calls by one that
uses the head of the empty list. -/
theorem fault_of_not_headKept {t t' : UInt32} (hcb : config.writeCb = true)
    (h : ¬HeadKept context (.process t t')) :
    ∃ n ≤ 2, ∃ context' outs,
      run atNext context (List.replicate n (.process t t')) = some (context', outs) ∧
        atStep context' (.process t t') = .error .emptyList := by
  obtain ⟨hparsing, hpeek, h⟩ : context.parsingFlag = false ∧ context.peek ≠ [] ∧ _ := by
    simpa only [HeadKept, Classical.not_imp] using h
  have hresume := resume_of_not_parsing hparsing
  rcases not_and_or.mp h with htag | hlast
  · -- the tag of an answer, and no command that it could answer
    obtain ⟨hstate, hhead, hlist⟩ : context.state = .readHead ∧ context.headState.usesHead = true ∧
        context.writeList = [] := by
      simpa only [Classical.not_imp, not_not] using htag
    have hstep : atNext context (.process t t') = some (context.tagged, .process .none) := by
      have hswitch : context.resume.readSwitch (padded context.peek) context.peek.length .none =
          .ok (context.tagged, .none, false) := by
        have hidle : context.headState ≠ .idle := fun hidle => by
          rw [hidle] at hhead
          exact nomatch hhead
        rw [← readTag_update hidle]
        simp only [hresume, readSwitch, hstate]
        rfl
      rw [atNext_eq_some]
      simp only [atStep, hyAtUtilsProcess, hstate, readHandle_of_ok hpeek hswitch hparsing]
      rfl
    obtain ⟨n, hn, context', outs, hrun, hfault⟩ :=
      @fault_of_usesHead _ context.tagged t t' hcb hlist hhead (.inr ⟨hparsing, hpeek⟩)
    exact ⟨n + 1, by omega, context', _, run_cons_eq_some.mpr ⟨_, _, _, hstep, hrun, rfl⟩, hfault⟩
  · -- the last command is dropped, and the state is the one in which its head is sent
    obtain ⟨hstate, hretry⟩ : (context.state = .readError ∨ context.state = .readFaild) ∧
        context.writeList.map (·.atCmd.retry) = [1] := by
      simpa only [Classical.not_imp, not_not] using hlast
    obtain ⟨pos, hlist, hone⟩ := List.map_eq_singleton_iff.mp hretry
    obtain ⟨context₁, report, hfault, hlist₁, hstate₁, hparsing₁⟩ :=
      readFault_last hparsing hlist hone
    have hstep : atNext context (.process t t') = some (context₁, .process report) := by
      have hswitch : context.resume.readSwitch (padded context.peek) context.peek.length .none =
          .ok (context₁, report, false) := by
        rcases hstate with hstate | hstate <;>
          simp only [hresume, readSwitch, hstate, hfault] <;> rfl
      rw [atNext_eq_some]
      rcases hstate with hstate | hstate <;>
        simp only [atStep, hyAtUtilsProcess, hstate, readHandle_of_ok hpeek hswitch hparsing₁] <;>
        rfl
    obtain ⟨n, hn, context', outs, hrun, hfault⟩ := @fault_of_usesHead _ context₁ t t' hcb hlist₁
      (by rw [hstate₁]; rfl) (.inl hstate₁)
    exact ⟨n + 1, by omega, context', _, run_cons_eq_some.mpr ⟨_, _, _, hstep, hrun, rfl⟩, hfault⟩

/-- One command is queued, answered with OK, and a second one fails twice and is sent again. -/
theorem process_head_nonempty_answered :
    EachStep atNext (fun context op => atStep context op ≠ .error .emptyList)
      (hyAtUtilsCreate
        { writeCb := true, handleFrameCb := true, catchStr := [⟨6, [79, 75]⟩, ⟨12, [69, 82]⟩]
          fifoLen := 64, atCmdNum := 0, isCmdOk := 0 })
      ([.writeCmd ⟨[65, 84], [], 0, 1000, 3⟩ true] ++ List.replicate 3 (.process 5 5) ++
        [.process 20 20, .putData [79, 75, 13, 10]] ++ List.replicate 6 (.process 20 20) ++
        [.writeCmd ⟨[65, 84], [], 0, 1000, 3⟩ true] ++ List.replicate 3 (.process 30 30) ++
        [.process 50 50, .putData [69, 82]] ++ List.replicate 6 (.process 50 50)) :=
  process_head_nonempty _ (by decide +kernel)

/-- The module says OK while no command is queued: the fourth call uses the head of the empty
list. -/
theorem unsolicited_ok_faults :
    ∃ (context : AtUtilsContext
        { writeCb := true, handleFrameCb := true, catchStr := [⟨6, [79, 75]⟩]
          fifoLen := 64, atCmdNum := 0, isCmdOk := 0 }) (outs : List AtOut),
      run atNext (hyAtUtilsCreate _)
        ([.putData [79, 75, 13, 10]] ++ List.replicate 3 (.process 0 0)) = some (context, outs) ∧
      atStep context (.process 0 0) = .error .emptyList := by
  refine ⟨_, _, rfl, ?_⟩
  rfl

end HyUtils.AtUtils
