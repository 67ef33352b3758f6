import ProvenAesd.SystemcallsOwnChild

/-! The output file of `do_exec_redirect`, whose one description the forked process takes
over with the fork. -/
namespace ProvenAesd.Systemcalls1
open Mealy SeekableFile
open Systemcalls (Termination CallEvent wroteOf wroteOf_concat wroteOf_quiet)

/-- How far the forked process is with its standard output and error. -/
def OutputStage (s : ExecState) (os : List CallEvent) : Prop :=
  match s.forked with
  | .notForked =>
    wroteOf os = [] ∧ s.stdoutToFile = false ∧ (s.caller = .fork → s.file = [] ∧ s.offset = 0)
  | .dup2Stdout => wroteOf os = [] ∧ s.stdoutToFile = false ∧ s.file = [] ∧ s.offset = 0
  | .dup2Stderr => s.stdoutToFile = true
  | .closeFile | .execv | .command _ _ => s.stdoutToFile = true ∧ s.stderrToFile = true
  | .failed _ => True

/-- Nobody truncates the file once the forked process has it, and the one offset is
always at its end. -/
structure OutputInv (s : ExecState) (os : List CallEvent) : Prop where
  stage : OutputStage s os
  starts : s.caller = .openFile ∨ s.caller = .fork → s.forked = .notForked
  redirected : s.stdoutToFile = true → s.file = wroteOf os ∧ s.offset = (wroteOf os).length

section Output

variable {s t : ExecState} {os : List CallEvent} {e : CallEvent}

/-- The caller goes on to a statement behind the fork. -/
theorem OutputInv.callerMoves (h : OutputInv s os) (hforked : t.forked = s.forked)
    (hfile : t.file = s.file) (hoffset : t.offset = s.offset) (hout : t.stdoutToFile = s.stdoutToFile)
    (herr : t.stderrToFile = s.stderrToFile) (hcaller : t.caller ≠ .openFile ∧ t.caller ≠ .fork)
    (hbytes : e.bytes = []) : OutputInv t (os ++ [e]) := by
  obtain ⟨hstage, -, hredirected⟩ := h
  refine ⟨?_, fun hstart => ?_, ?_⟩
  · unfold OutputStage at hstage ⊢
    rw [hforked, hout, herr, wroteOf_quiet hbytes]
    cases hf : s.forked with
    | notForked =>
      simp only [hf] at hstage
      exact ⟨hstage.1, hstage.2.1, fun hc => absurd hc hcaller.2⟩
    | dup2Stdout =>
      simp only [hf] at hstage
      rw [hfile, hoffset]
      exact hstage
    | _ =>
      simp only [hf] at hstage
      exact hstage
  · exact absurd hstart (not_or.mpr hcaller)
  · rw [hout, hfile, hoffset, wroteOf_quiet hbytes]
    exact hredirected

/-- The forked process goes on, having written nothing. -/
theorem OutputInv.forkedMoves (h : OutputInv s os) (hcaller : t.caller = s.caller)
    (hstarted : s.forked ≠ .notForked)
    (hstage : wroteOf (os ++ [.quiet]) = wroteOf os → OutputStage t (os ++ [.quiet]))
    (hredirected : t.stdoutToFile = true → t.file = wroteOf os ∧ t.offset = (wroteOf os).length) :
    OutputInv t (os ++ [.quiet]) := by
  refine ⟨hstage (wroteOf_quiet rfl), fun hstart => ?_, ?_⟩
  · rw [hcaller] at hstart
    exact absurd (h.starts hstart) hstarted
  · rw [wroteOf_quiet rfl]
    exact hredirected

theorem OutputInv.stay (h : OutputInv s os) : OutputInv s (os ++ [.quiet]) := by
  obtain ⟨hstage, hstarts, hredirected⟩ := h
  unfold OutputStage at hstage
  refine ⟨?_, hstarts, ?_⟩
  · unfold OutputStage
    rw [wroteOf_quiet rfl]
    exact hstage
  · rw [wroteOf_quiet rfl]
    exact hredirected

/-- Writing at the end of the file. -/
theorem output_redirected {toFile : Bool}
    (h : s.stdoutToFile = true → s.file = wroteOf os ∧ s.offset = (wroteOf os).length)
    (hout : s.stdoutToFile = true → toFile = true) (bytes : List UInt8) :
    (s.output toFile bytes).stdoutToFile = true →
      (s.output toFile bytes).file = wroteOf (os ++ [.wrote bytes]) ∧
        (s.output toFile bytes).offset = (wroteOf (os ++ [.wrote bytes])).length := by
  intro hredirected
  have hsame : (s.output toFile bytes).stdoutToFile = s.stdoutToFile := by
    unfold ExecState.output
    split <;> rfl
  rw [hsame] at hredirected
  obtain ⟨hfile, hoffset⟩ := h hredirected
  have hwrote : wroteOf (os ++ [.wrote bytes]) = wroteOf os ++ bytes := wroteOf_concat ..
  rw [hout hredirected, hwrote, List.length_append, ← hoffset]
  refine ⟨?_, rfl⟩
  change writeAt s.file s.offset bytes = _
  rw [hoffset, hfile, writeAt_length]

theorem callerStep_output (h : OutputInv s os) (pid : ℕ) (errno : UInt8) :
    OutputInv (callerStep doExecRedirect s pid errno).1
      (os ++ [(callerStep doExecRedirect s pid errno).2]) := by
  have hstage := h.stage
  unfold OutputStage at hstage
  unfold callerStep
  cases hc : s.caller with
  | openFile =>
    have hforked := h.starts (Or.inl hc)
    simp only [hforked] at hstage
    obtain ⟨hnothing, hout, -⟩ := hstage
    by_cases he : errno = 0
    · simp only [if_pos he]
      refine ⟨?_, fun _ => hforked, fun hredirected => ?_⟩
      · simp only [OutputStage, hforked]
        exact ⟨(wroteOf_quiet rfl).trans hnothing, hout, fun _ => ⟨trivial, trivial⟩⟩
      · exact absurd (hout.symm.trans hredirected) Bool.false_ne_true
    · simp only [if_neg he]
      exact h.callerMoves rfl rfl rfl rfl rfl ⟨CallerPc.noConfusion, CallerPc.noConfusion⟩ rfl
  | fork =>
    have hforked := h.starts (Or.inr hc)
    simp only [hforked] at hstage
    obtain ⟨hnothing, hout, hempty⟩ := hstage
    by_cases he : errno = 0
    · simp only [if_pos he]
      refine ⟨⟨(wroteOf_quiet rfl).trans hnothing, hout, hempty hc⟩, fun hstart => ?_,
        fun hredirected => ?_⟩
      · rcases hstart with hstart | hstart <;> cases hstart
      · exact absurd (hout.symm.trans hredirected) Bool.false_ne_true
    · simp only [if_neg he]
      exact h.callerMoves rfl rfl rfl rfl rfl ⟨CallerPc.noConfusion, CallerPc.noConfusion⟩ rfl
  | testPid =>
    cases s.pid with
    | none => exact h.callerMoves rfl rfl rfl rfl rfl ⟨CallerPc.noConfusion, CallerPc.noConfusion⟩ rfl
    | some forked =>
      exact h.callerMoves rfl rfl rfl rfl rfl ⟨CallerPc.noConfusion, CallerPc.noConfusion⟩ rfl
  | closeFile =>
    exact h.callerMoves rfl rfl rfl rfl rfl ⟨CallerPc.noConfusion, CallerPc.noConfusion⟩ rfl
  | waitpid =>
    by_cases he : errno = 0
    · simp only [if_pos he]
      cases s.pid with
      | none => exact h.stay
      | some forked =>
        cases hz : s.child forked with
        | zombie how =>
          simp only [hz]
          exact h.callerMoves rfl rfl rfl rfl rfl ⟨CallerPc.noConfusion, CallerPc.noConfusion⟩ rfl
        | _ =>
          simp only [hz]
          exact h.stay
    · simp only [if_neg he]
      split
      · exact h.callerMoves rfl rfl rfl rfl rfl ⟨CallerPc.noConfusion, CallerPc.noConfusion⟩ rfl
      · exact h.callerMoves rfl rfl rfl rfl rfl ⟨CallerPc.noConfusion, CallerPc.noConfusion⟩ rfl
  | testStatus =>
    exact h.callerMoves rfl rfl rfl rfl rfl ⟨CallerPc.noConfusion, CallerPc.noConfusion⟩ rfl
  | returned _ | exited => exact h.stay

theorem output_same (s : ExecState) (toFile : Bool) (bytes : List UInt8) :
    (s.output toFile bytes).caller = s.caller ∧ (s.output toFile bytes).forked = s.forked ∧
      (s.output toFile bytes).stdoutToFile = s.stdoutToFile ∧
      (s.output toFile bytes).stderrToFile = s.stderrToFile := by
  unfold ExecState.output
  split <;> exact ⟨rfl, rfl, rfl, rfl⟩

/-- The flush at the exit, to wherever the standard output goes by then. -/
theorem exitForked_output (h : OutputInv s os) {message : String} (hf : s.forked = .failed message)
    (bytes : List UInt8) :
    OutputInv (s.output s.stdoutToFile bytes).exitForked (os ++ [.wrote bytes]) := by
  obtain ⟨hcaller, hforked, -, -⟩ := output_same s s.stdoutToFile bytes
  have hfailed : (s.output s.stdoutToFile bytes).exitForked.forked = .failed message :=
    hforked.trans hf
  refine ⟨?_, fun hstart => ?_, output_redirected h.redirected id bytes⟩
  · simp only [OutputStage, hfailed]
  · change (s.output s.stdoutToFile bytes).caller = _ ∨ (s.output s.stdoutToFile bytes).caller = _
      at hstart
    rw [hcaller] at hstart
    rw [h.starts hstart] at hf
    cases hf

theorem forkedStep_output (h : OutputInv s os) (command : Command) (unflushed : List UInt8)
    (errno : UInt8) :
    OutputInv (forkedStep doExecRedirect command unflushed s errno).1
      (os ++ [(forkedStep doExecRedirect command unflushed s errno).2]) := by
  have hstage := h.stage
  unfold OutputStage at hstage
  unfold forkedStep
  by_cases halive : s.alive = true
  · rw [if_pos halive]
    cases hf : s.forked with
    | dup2Stdout =>
      simp only [hf] at hstage
      obtain ⟨hnothing, hout, hfile, hoffset⟩ := hstage
      have hstarted : s.forked ≠ .notForked := by rw [hf]; exact ForkedPc.noConfusion
      by_cases he : errno = 0
      · simp only [if_pos he]
        refine h.forkedMoves rfl hstarted (fun _ => rfl) fun _ => ?_
        rw [hnothing]
        exact ⟨hfile, hoffset⟩
      · simp only [if_neg he]
        exact h.forkedMoves rfl hstarted (fun _ => trivial) h.redirected
    | dup2Stderr =>
      simp only [hf] at hstage
      have hstarted : s.forked ≠ .notForked := by rw [hf]; exact ForkedPc.noConfusion
      by_cases he : errno = 0
      · simp only [if_pos he]
        exact h.forkedMoves rfl hstarted (fun _ => ⟨hstage, rfl⟩) h.redirected
      · simp only [if_neg he]
        exact h.forkedMoves rfl hstarted (fun _ => trivial) h.redirected
    | closeFile =>
      simp only [hf] at hstage
      have hstarted : s.forked ≠ .notForked := by rw [hf]; exact ForkedPc.noConfusion
      exact h.forkedMoves rfl hstarted (fun _ => hstage) h.redirected
    | execv =>
      simp only [hf] at hstage
      have hstarted : s.forked ≠ .notForked := by rw [hf]; exact ForkedPc.noConfusion
      by_cases he : errno = 0
      · simp only [if_pos he]
        exact h.forkedMoves rfl hstarted (fun _ => hstage) h.redirected
      · simp only [if_neg he]
        exact h.forkedMoves rfl hstarted (fun _ => trivial) h.redirected
    | failed message => exact exitForked_output h hf _
    | notForked | command path argv => exact h.stay
  · rw [if_neg halive]
    exact h.stay

theorem commandWrite_output (h : OutputInv s os) (stderr : Bool) (bytes : List UInt8) :
    OutputInv (commandWrite s stderr bytes).1 (os ++ [(commandWrite s stderr bytes).2]) := by
  have hstage := h.stage
  unfold OutputStage at hstage
  unfold commandWrite
  by_cases hrun : (s.alive && s.forked.isCommand) = true
  · rw [if_pos hrun]
    cases hf : s.forked with
    | command path argv =>
      simp only [hf] at hstage
      -- the standard error shares the offset of the standard output
      have htoFile : s.stdoutToFile = true →
          (if stderr then s.stderrToFile else s.stdoutToFile) = true := by
        intro _
        cases stderr
        · exact hstage.1
        · exact hstage.2
      obtain ⟨hcaller, hforked, hout, herr⟩ :=
        output_same s (if stderr then s.stderrToFile else s.stdoutToFile) bytes
      refine ⟨?_, fun hstart => ?_, output_redirected h.redirected htoFile bytes⟩
      · simp only [OutputStage, hforked, hf, hout, herr]
        exact hstage
      · rw [hcaller] at hstart
        rw [h.starts hstart] at hf
        cases hf
    | _ => simp [hf, ForkedPc.isCommand] at hrun
  · rw [if_neg hrun]
    exact h.stay

theorem terminate_output (h : OutputInv s os) (pid : ℕ) (how : Termination) :
    OutputInv (terminate s pid how).1 (os ++ [(terminate s pid how).2]) :=
  ⟨h.stay.stage, h.stay.starts, h.stay.redirected⟩

theorem execStep_output (h : OutputInv s os) (command : Command) (unflushed : List UInt8)
    (step : ExecStep) :
    OutputInv (execStep doExecRedirect command unflushed s step).1
      (os ++ [(execStep doExecRedirect command unflushed s step).2]) := by
  cases step with
  | caller pid errno => exact callerStep_output h pid errno
  | forked errno => exact forkedStep_output h command unflushed errno
  | write stderr bytes => exact commandWrite_output h stderr bytes
  | terminate pid how => exact terminate_output h pid how

end Output

/-- The function has waited for the process it forked and for no other: it returns true
when that has been reaped, however it ended, and false when `waitpid` failed. -/
structure OwnAwaited (others : ℕ → Option (Option Termination)) (s : ExecState) (pid : ℕ)
    (result : Bool) : Prop where
  result_iff : result = true ↔ ∃ how, s.child pid = .reaped how
  left : result = false → (s.child pid).Waitable
  others : ∀ p, (others p).isSome → (s.child p).Waitable
  closed : s.fd = false

/-- Whatever fails, whatever order the processes run in and whatever other children there
are, the functions of `systemcalls_1.c` wait for their own child (SIGCHLD not being ignored),
and with its output redirected the file holds all it has written, and nothing else. -/
theorem own_child_awaited {f : ExecFunction} (hf : f = doExec ∨ f = doExecRedirect)
    (command : Command) (unflushed : List UInt8) (others : ℕ → Option (Option Termination))
    (file : List UInt8) (status : ℤ) {steps : List ExecStep}
    (h : (execCall f command unflushed).Guarded KernelAnswers (execInit f others file status) steps)
    {result : Bool}
    (hret : ((execCall f command unflushed).final (execInit f others file status) steps).caller =
      .returned result) :
    let s := (execCall f command unflushed).final (execInit f others file status) steps
    let events := (execCall f command unflushed).outputs (execInit f others file status) steps
    (∃ pid, s.pid = some pid ∧ OwnAwaited others s pid result) ∧
      (f = doExecRedirect → s.stdoutToFile = true → s.file = wroteOf events) := by
  intro s events
  have hinv : ExecInv f others s := by
    apply h.invariant (ExecInv f others) _ (execInit_inv hf others file status)
    intro s step hs hok
    exact execStep_inv hf hs hok
  constructor
  · have hothers (p : ℕ) (hp : (others p).isSome) := (hinv.others p hp).1
    have hphase := hinv.phase
    have hclosed := hinv.closes
    simp only [ExecPhase, Closes, show s.caller = .returned result from hret] at hphase hclosed
    cases result with
    | true =>
      obtain ⟨pid, how, hpid, hr⟩ := hphase
      exact ⟨pid, hpid, ⟨iff_of_true rfl ⟨how, hr⟩, nofun, hothers, hclosed⟩⟩
    | false =>
      obtain ⟨pid, hpid, hw⟩ := hphase
      refine ⟨pid, hpid, ⟨iff_of_false Bool.false_ne_true ?_, fun _ => hw, hothers, hclosed⟩⟩
      rintro ⟨how, hr⟩
      rw [hr] at hw
      exact hw
  · rintro rfl hredirected
    have hout : OutputInv s events := by
      apply h.history fun s _ os => OutputInv s os
      · refine ⟨⟨rfl, rfl, nofun⟩, fun _ => rfl, nofun⟩
      · intro s _ os step hs _
        exact execStep_output hs command unflushed step
    exact (hout.redirected hredirected).1

/-- The command writes "(" to its standard output and ")" to its standard error. -/
def bothOutputs : List ExecStep :=
  [.caller 0 0, .caller 8 0, .forked 0, .caller 0 0, .forked 0, .forked 0, .caller 0 0, .forked 0,
    .write false [40], .caller 0 0, .write true [41], .terminate 8 (.exited 1), .caller 0 0, .caller 0 0]

/-- The child 7 has ended before and is left alone, and the result is true although the
command exits with 1. -/
theorem own_child_awaited_failing_command :
    let others : ℕ → Option (Option Termination) :=
      fun p => if p = 7 then some (some (.exited 0)) else none
    let f := doExecRedirect
    let call := execCall f ⟨"sh", ["-c"]⟩ []
    let s := call.final (execInit f others [1, 2, 3] 0) bothOutputs
    (∃ pid, s.pid = some pid ∧ OwnAwaited others s pid true) ∧ s.file = [40, 41] ∧
      s.child 8 = .reaped (.exited 1) := by
  intro others f call s
  have hanswers : call.Guarded KernelAnswers (execInit f others [1, 2, 3] 0) bothOutputs := by decide
  have hret : s.caller = .returned true := by decide
  have h := own_child_awaited (Or.inr rfl) ⟨"sh", ["-c"]⟩ [] others [1, 2, 3] 0 hanswers hret
  exact ⟨h.1, (h.2 rfl (by decide)).trans (by decide), by decide⟩

end ProvenAesd.Systemcalls1
