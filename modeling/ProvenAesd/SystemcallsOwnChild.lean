import ProvenAesd.SystemcallsWaitpid

/-! The caller and its children: the forked process is the only one it reaps. -/
namespace ProvenAesd.Systemcalls1
open Systemcalls (Termination ChildState EndedSince forkedRuns_iff)

/-- What anybody but the caller leaves as the caller has it. -/
structure Frame (s t : ExecState) : Prop where
  caller : t.caller = s.caller
  pid : t.pid = s.pid
  status : t.status = s.status
  fd : t.fd = s.fd
  forked : s.pid = none → t.forked = s.forked
  children : EndedSince s.child t.child

theorem Frame.refl (s : ExecState) : Frame s s :=
  ⟨rfl, rfl, rfl, rfl, fun _ => rfl, EndedSince.refl s.child⟩

/-- The forked process goes on, with its descriptors and the file. -/
theorem Frame.moves {s : ExecState} (halive : s.alive = true) (forked : ForkedPc) (file : List UInt8)
    (offset : ℕ) (out err : Bool) :
    Frame s { s with
      forked := forked
      file := file
      offset := offset
      stdoutToFile := out
      stderrToFile := err } := by
  obtain ⟨pid, hpid, -⟩ := forkedRuns_iff.mp halive
  refine ⟨rfl, rfl, rfl, rfl, fun hnone => ?_, EndedSince.refl s.child⟩
  rw [hpid] at hnone
  cases hnone

theorem output_frame (s : ExecState) (toFile : Bool) (bytes : List UInt8) :
    Frame s (s.output toFile bytes) := by
  unfold ExecState.output
  split
  · exact ⟨rfl, rfl, rfl, rfl, fun _ => rfl, EndedSince.refl s.child⟩
  · exact Frame.refl s

/-- The forked process writes a last time and exits. -/
theorem exitForked_frame {s : ExecState} (h : s.alive = true) (toFile : Bool) (bytes : List UInt8) :
    Frame s (s.output toFile bytes).exitForked := by
  have hexits := EndedSince.setForked h (.exited 255)
  unfold ExecState.output
  split <;> exact ⟨rfl, rfl, rfl, rfl, fun _ => rfl, hexits⟩

section Frame

variable {f : ExecFunction} {command : Command} {unflushed : List UInt8}

theorem forkedStep_frame (s : ExecState) (errno : UInt8) :
    Frame s (forkedStep f command unflushed s errno).1 := by
  unfold forkedStep
  by_cases halive : s.alive = true
  · rw [if_pos halive]
    cases s.forked with
    | dup2Stdout | dup2Stderr | execv =>
      by_cases he : errno = 0
      · simp only [if_pos he]
        exact Frame.moves halive ..
      · simp only [if_neg he]
        exact Frame.moves halive ..
    | closeFile => exact Frame.moves halive ..
    | failed message => exact exitForked_frame halive ..
    | notForked | command path argv => exact Frame.refl s
  · rw [if_neg halive]
    exact Frame.refl s

theorem commandWrite_frame (s : ExecState) (stderr : Bool) (bytes : List UInt8) :
    Frame s (commandWrite s stderr bytes).1 := by
  unfold commandWrite
  split
  · exact output_frame ..
  · exact Frame.refl s

theorem terminate_frame (s : ExecState) (pid : ℕ) (how : Termination) :
    Frame s (terminate s pid how).1 :=
  ⟨rfl, rfl, rfl, rfl, fun _ => rfl, EndedSince.terminateChild s.child s.pid _ pid how⟩

theorem execStep_frame (s : ExecState) {step : ExecStep} (h : ∀ pid errno, step ≠ .caller pid errno) :
    Frame s (execStep f command unflushed s step).1 := by
  cases step with
  | caller pid errno => exact absurd rfl (h pid errno)
  | forked errno => exact forkedStep_frame s errno
  | write stderr bytes => exact commandWrite_frame s stderr bytes
  | terminate pid how => exact terminate_frame s pid how

end Frame

/-- The other children are neither forked here nor reaped. -/
def OthersLeft (others : ℕ → Option (Option Termination)) (s : ExecState) : Prop :=
  ∀ p, (others p).isSome → (s.child p).Waitable ∧ s.pid ≠ some p

/-- Whether the forked process has been reaped, at each statement of the caller. -/
def ExecPhase (s : ExecState) : Prop :=
  match s.caller with
  | .openFile | .fork => s.pid = none ∧ s.forked = .notForked
  | .testPid => ∀ pid, s.pid = some pid → (s.child pid).Waitable
  | .closeFile | .waitpid | .returned false => ∃ pid, s.pid = some pid ∧ (s.child pid).Waitable
  | .testStatus => ∃ pid how, s.pid = some pid ∧ s.child pid = .reaped how ∧ s.status = how.waitStatus
  | .returned true => ∃ pid how, s.pid = some pid ∧ s.child pid = .reaped how
  | .exited => True

def Closes (f : ExecFunction) (s : ExecState) : Prop :=
  match s.caller with
  | .openFile => f.parentCase = .closeFile
  | .fork | .testPid => f.parentCase = .waitpid → s.fd = false
  | .closeFile | .exited => True
  | .waitpid | .testStatus | .returned _ => s.fd = false

structure ExecInv (f : ExecFunction) (others : ℕ → Option (Option Termination)) (s : ExecState) :
    Prop where
  others : OthersLeft others s
  phase : ExecPhase s
  closes : Closes f s

theorem execInit_inv {f : ExecFunction} (hf : f = doExec ∨ f = doExecRedirect)
    (others : ℕ → Option (Option Termination)) (file : List UInt8) (status : ℤ) :
    ExecInv f others (execInit f others file status) := by
  refine ⟨fun p hp => ⟨?_, Option.some_ne_none p ∘ Eq.symm⟩, ?_, ?_⟩
  · obtain ⟨o, ho⟩ := Option.isSome_iff_exists.mp hp
    simp only [execInit, ho]
    cases o <;> trivial
  · rcases hf with rfl | rfl <;> exact ⟨rfl, rfl⟩
  · rcases hf with rfl | rfl
    · exact fun _ => rfl
    · rfl

section Invariant

variable {f : ExecFunction} {others : ℕ → Option (Option Termination)} {s t : ExecState}

theorem ExecInv.frame (h : ExecInv f others s) (hf : Frame s t) : ExecInv f others t := by
  obtain ⟨hothers, hphase, hcloses⟩ := h
  refine ⟨fun p hp => ⟨hf.children.waitable p (hothers p hp).1, ?_⟩, ?_, ?_⟩
  · rw [hf.pid]
    exact (hothers p hp).2
  · unfold ExecPhase at hphase ⊢
    rw [hf.caller]
    cases hc : s.caller with
    | openFile | fork =>
      simp only [hc] at hphase
      exact ⟨hf.pid.trans hphase.1, (hf.forked hphase.1).trans hphase.2⟩
    | testPid =>
      simp only [hc] at hphase
      intro pid hpid
      exact hf.children.waitable pid (hphase pid (hf.pid.symm.trans hpid))
    | closeFile | waitpid =>
      simp only [hc] at hphase
      obtain ⟨pid, hpid, hw⟩ := hphase
      exact ⟨pid, hf.pid.trans hpid, hf.children.waitable pid hw⟩
    | testStatus =>
      simp only [hc] at hphase
      obtain ⟨pid, how, hpid, hr, hstatus⟩ := hphase
      have hr' := (hf.children.reaped_iff pid how).mpr hr
      exact ⟨pid, how, hf.pid.trans hpid, hr', hf.status.trans hstatus⟩
    | returned result =>
      cases result with
      | false =>
        simp only [hc] at hphase
        obtain ⟨pid, hpid, hw⟩ := hphase
        exact ⟨pid, hf.pid.trans hpid, hf.children.waitable pid hw⟩
      | true =>
        simp only [hc] at hphase
        obtain ⟨pid, how, hpid, hr⟩ := hphase
        exact ⟨pid, how, hf.pid.trans hpid, (hf.children.reaped_iff pid how).mpr hr⟩
    | exited => trivial
  · unfold Closes at hcloses ⊢
    rw [hf.caller, hf.fd]
    exact hcloses

/-- What the two functions have in common. -/
theorem ends_in_waitpid (hf : f = doExec ∨ f = doExecRedirect) :
    f.parentCase = .waitpid ∨ f.parentCase = .closeFile := by
  rcases hf with rfl | rfl
  · exact Or.inl rfl
  · exact Or.inr rfl

theorem forked_others (h : OthersLeft others s) {pid : ℕ} (hfresh : s.child pid = .absent) :
    OthersLeft others { s with
      pid := some pid
      child := Function.update s.child pid .running
      forked := f.childStart
      caller := .testPid } := by
  intro p hp
  have hw := (h p hp).1
  have hne : p ≠ pid := by
    rintro rfl
    rw [hfresh] at hw
    exact hw
  constructor
  · change ChildState.Waitable (Function.update s.child pid .running p)
    rw [Function.update_of_ne hne]
    exact hw
  · exact fun he => hne (Option.some.inj he).symm

theorem reaped_others (h : OthersLeft others s) {pid : ℕ} (hpid : s.pid = some pid)
    (how : Termination) :
    OthersLeft others { s with
      status := how.waitStatus
      child := Function.update s.child pid (.reaped how)
      caller := .testStatus } := by
  intro p hp
  obtain ⟨hw, hother⟩ := h p hp
  have hne : p ≠ pid := by
    rintro rfl
    exact hother hpid
  refine ⟨?_, hother⟩
  change ChildState.Waitable (Function.update s.child pid (.reaped how) p)
  rw [Function.update_of_ne hne]
  exact hw

theorem callerStep_inv (hf : f = doExec ∨ f = doExecRedirect) (h : ExecInv f others s) {pid : ℕ}
    {errno : UInt8} (hok : KernelAnswers s (.caller pid errno)) :
    ExecInv f others (callerStep f s pid errno).1 := by
  have hothers := h.others
  have hphase := h.phase
  have hcloses := h.closes
  unfold ExecPhase at hphase
  unfold Closes at hcloses
  unfold callerStep
  cases hc : s.caller with
  | openFile =>
    simp only [hc] at hphase hcloses
    by_cases he : errno = 0
    · simp only [if_pos he]
      refine ⟨hothers, hphase, fun hwaitpid => ?_⟩
      rw [hcloses] at hwaitpid
      cases hwaitpid
    · simp only [if_neg he]
      exact ⟨hothers, trivial, trivial⟩
  | fork =>
    simp only [hc] at hphase hcloses
    by_cases he : errno = 0
    · simp only [if_pos he]
      refine ⟨forked_others hothers (hok.1 hc he), fun p hp => ?_, hcloses⟩
      obtain rfl : pid = p := Option.some.inj hp
      change ChildState.Waitable (Function.update s.child pid .running pid)
      rw [Function.update_self]
      trivial
    · simp only [if_neg he]
      exact ⟨fun p hp => ⟨(hothers p hp).1, Option.some_ne_none p ∘ Eq.symm⟩, nofun, hcloses⟩
  | testPid =>
    simp only [hc] at hphase hcloses
    cases hpid : s.pid with
    | none => exact ⟨fun p hp => ⟨(hothers p hp).1, Option.some_ne_none p ∘ Eq.symm⟩, trivial, trivial⟩
    | some forked =>
      have hwait : ∃ pid, some forked = some pid ∧ (s.child pid).Waitable :=
        ⟨forked, rfl, hphase forked hpid⟩
      have hothers' (p : ℕ) (hp : (others p).isSome) :
          (s.child p).Waitable ∧ some forked ≠ some p := hpid ▸ hothers p hp
      rcases ends_in_waitpid hf with hcase | hcase
      · simp only [hcase] at hcloses ⊢
        exact ⟨hothers', hwait, hcloses trivial⟩
      · simp only [hcase]
        exact ⟨hothers', hwait, trivial⟩
  | closeFile =>
    simp only [hc] at hphase
    exact ⟨hothers, hphase, rfl⟩
  | waitpid =>
    simp only [hc] at hphase hcloses
    obtain ⟨forked, hpid, hw⟩ := hphase
    by_cases he : errno = 0
    · simp only [if_pos he, hpid]
      cases hz : s.child forked with
      | zombie how =>
        have hothers' := reaped_others hothers hpid how
        simp only [hpid] at hothers'
        exact ⟨hothers', ⟨forked, how, rfl, Function.update_self .., rfl⟩, hcloses⟩
      | _ => exact h
    · simp only [if_neg he, if_neg (hok.2 hc)]
      exact ⟨hothers, ⟨forked, hpid, hw⟩, hcloses⟩
  | testStatus =>
    simp only [hc] at hphase hcloses
    obtain ⟨forked, how, hpid, hr, hstatus⟩ := hphase
    -- no status is -1
    have htest : (s.status != -1) = true := by
      rw [hstatus, bne_iff_ne]
      omega
    simp only [htest]
    exact ⟨hothers, ⟨forked, how, hpid, hr⟩, hcloses⟩
  | returned _ | exited => exact h

theorem execStep_inv (hf : f = doExec ∨ f = doExecRedirect) {command : Command}
    {unflushed : List UInt8} (h : ExecInv f others s) {step : ExecStep} (hok : KernelAnswers s step) :
    ExecInv f others (execStep f command unflushed s step).1 := by
  cases step with
  | caller pid errno => exact callerStep_inv hf h hok
  | _ => exact h.frame (execStep_frame s (fun _ _ => ExecStep.noConfusion))

end Invariant

end ProvenAesd.Systemcalls1
