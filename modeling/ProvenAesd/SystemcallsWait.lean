import ProvenAesd.SystemcallsExec

/-! The caller takes whatever child `wait` reports for the one it has forked. -/
namespace ProvenAesd.Systemcalls
open Mealy

/-- The test of the status, for every way to end. -/
theorem status_test_iff (how : Termination) :
    (wifexited how.waitStatus && wexitstatus how.waitStatus == 0) = true ↔ how = .exited 0 := by
  simp only [Bool.and_eq_true, beq_iff_eq, wifexited, wexitstatus]
  cases how with
  | exited code =>
    have hlt := code.toNat_lt
    simp only [Termination.waitStatus, Termination.exited.injEq]
    constructor
    · intro h
      apply UInt8.toNat_inj.mp
      change code.toNat = 0
      omega
    · rintro rfl
      decide
  | signaled signal coreDumped =>
    have hpos := signal.pos
    have hlt := signal.lt
    simp only [Termination.waitStatus, reduceCtorEq, iff_false, not_and]
    intro h
    split at h <;> omega

/-- The child that `wait` reports is the forked process. -/
def WaitsForOwn (s : CallState) : CallStep → Prop
  | .caller result _ =>
    s.caller = .wait → ∀ how, s.child result = .zombie how → s.pid = some result
  | .forked _ | .write _ | .terminate _ _ => True

/-- The result is that of the forked process, which has been reaped, and no other
child has. -/
structure OwnResult (others : ℕ → Option (Option Termination)) (s : CallState) (pid : ℕ)
    (result : Bool) : Prop where
  result_iff : result = true ↔ (s.child pid).ended = some (.exited 0)
  reaped : ∃ how, s.child pid = .reaped how
  waitable : ∀ p, (others p).isSome → (s.child p).Waitable

/-- The children are the other ones and the forked one. -/
structure Family (others : ℕ → Option (Option Termination)) (s : CallState) : Prop where
  other : ∀ p, (others p).isSome → s.child p ≠ .absent ∧ s.pid ≠ some p
  forked : ∀ pid, s.pid = some pid → s.child pid ≠ .absent

def NoneReaped (s : CallState) : Prop := ∀ p how, s.child p ≠ .reaped how

structure Waited (s : CallState) (p : ℕ) (how : Termination) : Prop where
  reaped : s.child p = .reaped how
  only : ∀ q how', s.child q = .reaped how' → q = p
  status_eq : s.status = how.waitStatus

def CallPhase (s : CallState) : Prop :=
  match s.caller with
  | .fork => s.pid = none ∧ NoneReaped s
  | .openFile | .switchPid | .closeFile | .wait => s.pid ≠ none ∧ NoneReaped s
  | .testStatus => s.pid ≠ none ∧ ∃ p how, Waited s p how
  | .returned result => s.pid ≠ none ∧ ∃ p how, Waited s p how ∧ (result = true ↔ how = .exited 0)
  | .exited => False

/-- What a step of anybody but the caller leaves as the caller has it. -/
structure CallerFrame (s t : CallState) : Prop where
  caller : t.caller = s.caller
  pid : t.pid = s.pid
  status : t.status = s.status
  children : EndedSince s.child t.child

theorem CallerFrame.of_child {s t : CallState} (hcaller : t.caller = s.caller) (hpid : t.pid = s.pid)
    (hstatus : t.status = s.status) (hchild : t.child = s.child) : CallerFrame s t :=
  ⟨hcaller, hpid, hstatus, fun _ => Or.inl (by rw [hchild])⟩

theorem exitForked_frame {s : CallState} (h : s.alive = true) (errno : UInt8) :
    CallerFrame s (s.exitForked errno) :=
  ⟨rfl, rfl, rfl, EndedSince.setForked h _⟩

theorem forkedStep_frame (s : CallState) (errno : UInt8) : CallerFrame s (forkedStep s errno).1 := by
  unfold forkedStep
  by_cases h : s.alive = true
  · rw [if_pos h]
    cases s.forked with
    | dup2 | execv =>
      by_cases he : errno = 0
      · simp only [if_pos he]
        exact .of_child rfl rfl rfl rfl
      · simp only [if_neg he]
        exact exitForked_frame h errno
    | openFile =>
      by_cases he : errno = 0
      · simp only [if_pos he]
        exact .of_child rfl rfl rfl rfl
      · simp only [if_neg he]
        exact .of_child rfl rfl rfl rfl
    | _ => exact .of_child rfl rfl rfl rfl
  · rw [if_neg h]
    exact .of_child rfl rfl rfl rfl

theorem commandWrite_frame (s : CallState) (bytes : List UInt8) :
    CallerFrame s (commandWrite s bytes).1 := by
  unfold commandWrite
  split
  · split
    · exact .of_child rfl rfl rfl rfl
    · exact .of_child rfl rfl rfl rfl
  · exact .of_child rfl rfl rfl rfl

theorem terminate_frame (s : CallState) (pid : ℕ) (how : Termination) :
    CallerFrame s (terminate s pid how).1 :=
  ⟨rfl, rfl, rfl, EndedSince.terminateChild s.child s.pid _ pid how⟩

section Frame

variable {others : ℕ → Option (Option Termination)} {s t : CallState} (hf : CallerFrame s t)

include hf

theorem CallerFrame.family (h : Family others s) : Family others t := by
  constructor
  · intro p hp
    rw [ne_eq, hf.children.absent_iff, hf.pid]
    exact h.other p hp
  · intro pid hpid
    rw [hf.pid] at hpid
    rw [ne_eq, hf.children.absent_iff]
    exact h.forked pid hpid

theorem CallerFrame.noneReaped (h : NoneReaped s) : NoneReaped t := by
  intro p how hr
  exact h p how ((hf.children.reaped_iff p how).mp hr)

theorem CallerFrame.waited {p : ℕ} {how : Termination} (h : Waited s p how) : Waited t p how :=
  ⟨(hf.children.reaped_iff p how).mpr h.reaped,
    fun q how' hq => h.only q how' ((hf.children.reaped_iff q how').mp hq), hf.status.trans h.status_eq⟩

theorem CallerFrame.callPhase (h : CallPhase s) : CallPhase t := by
  unfold CallPhase at h ⊢
  rw [hf.caller]
  cases hc : s.caller with
  | fork | openFile | switchPid | closeFile | wait =>
    simp only [hc] at h
    simp only [hf.pid]
    exact ⟨h.1, hf.noneReaped h.2⟩
  | testStatus =>
    simp only [hc] at h
    obtain ⟨hpid, p, how, hw⟩ := h
    simp only [hf.pid]
    exact ⟨hpid, p, how, hf.waited hw⟩
  | returned result =>
    simp only [hc] at h
    obtain ⟨hpid, p, how, hw, hresult⟩ := h
    simp only [hf.pid]
    exact ⟨hpid, p, how, hf.waited hw, hresult⟩
  | exited => simp only [hc] at h

end Frame

theorem callStep_frame (f : ExecFunction) (s : CallState) {step : CallStep}
    (h : ∀ result errno, step ≠ .caller result errno) : CallerFrame s (callStep f s step).1 := by
  cases step with
  | caller result errno => exact absurd rfl (h result errno)
  | forked errno => exact forkedStep_frame s errno
  | write bytes => exact commandWrite_frame s bytes
  | terminate pid how => exact terminate_frame s pid how

/-! The caller's own steps. -/

def BeforeWait (pc : CallerPc) : Prop :=
  pc = .openFile ∨ pc = .switchPid ∨ pc = .closeFile ∨ pc = .wait

theorem callPhase_of_beforeWait {s : CallState} (hpc : BeforeWait s.caller) (hpid : s.pid ≠ none)
    (hnone : NoneReaped s) : CallPhase s := by
  unfold CallPhase
  rcases hpc with hpc | hpc | hpc | hpc <;> simp only [hpc] <;> exact ⟨hpid, hnone⟩

/-- What the two functions have in common. -/
structure ForksAndWaits (f : ExecFunction) : Prop where
  afterFork : BeforeWait f.afterFork
  parentCase : BeforeWait f.parentCase

theorem forksAndWaits {f : ExecFunction} (hf : f = doExec ∨ f = doExecRedirect) : ForksAndWaits f := by
  rcases hf with rfl | rfl
  · exact ⟨Or.inr (Or.inl rfl), Or.inr (Or.inr (Or.inr rfl))⟩
  · exact ⟨Or.inl rfl, Or.inr (Or.inr (Or.inl rfl))⟩

structure CallInv (others : ℕ → Option (Option Termination)) (s : CallState) : Prop where
  family : Family others s
  phase : CallPhase s

theorem callInit_inv (others : ℕ → Option (Option Termination)) (file : List UInt8) (status : ℕ) :
    CallInv others (callInit others file status) := by
  refine ⟨⟨fun p hp => ⟨?_, Option.some_ne_none p ∘ Eq.symm⟩, ?_⟩, rfl, fun p how => ?_⟩
  · obtain ⟨o, ho⟩ := Option.isSome_iff_exists.mp hp
    simp only [callInit, ho]
    cases o <;> simp [childState]
  · intro pid hpid
    cases hpid
  · simp only [callInit]
    rcases others p with _ | _ | _ <;> simp [childState]

section Caller

variable {f : ExecFunction} (hf : ForksAndWaits f) {others : ℕ → Option (Option Termination)}
  {s : CallState}

def OwnReaped (s : CallState) : Prop := ∀ p how, s.child p = .reaped how → s.pid = some p

theorem NoneReaped.own (h : NoneReaped s) : OwnReaped s := fun p how hr => absurd hr (h p how)

/-- A step of the caller that leaves the children and the pid as they are. -/
theorem Family.of_same {t : CallState} (h : Family others s) (hchild : t.child = s.child)
    (hpid : t.pid = s.pid) : Family others t := by
  constructor
  · rw [hchild, hpid]
    exact h.other
  · rw [hchild, hpid]
    exact h.forked

theorem forked_family (h : Family others s) {pid : ℕ} (hfresh : s.child pid = .absent) :
    Family others { s with
      pid := some pid
      child := Function.update s.child pid .running
      forked := f.childStart
      caller := f.afterFork } := by
  constructor
  · intro p hp
    have hother := (h.other p hp).1
    have hne : p ≠ pid := by
      rintro rfl
      exact hother hfresh
    refine ⟨?_, ?_⟩
    · simpa [Function.update_of_ne hne] using hother
    · simpa using hne.symm
  · intro p hp
    obtain rfl : pid = p := Option.some.inj hp
    simp

theorem forked_noneReaped (h : NoneReaped s) (pid : ℕ) :
    NoneReaped { s with
      pid := some pid
      child := Function.update s.child pid .running
      forked := f.childStart
      caller := f.afterFork } := by
  intro p how hr
  by_cases hp : p = pid
  · subst hp
    simp at hr
  · exact h p how (by simpa [Function.update_of_ne hp] using hr)

theorem reaped_family (h : Family others s) {p : ℕ} (how : Termination) :
    Family others { s with
      status := how.waitStatus
      child := Function.update s.child p (.reaped how)
      caller := .testStatus } := by
  have hkept (q : ℕ) (hq : s.child q ≠ .absent) :
      Function.update s.child p (.reaped how) q ≠ .absent := by
    by_cases hqp : q = p
    · subst hqp
      simp
    · rwa [Function.update_of_ne hqp]
  constructor
  · intro q hq
    exact ⟨hkept q (h.other q hq).1, (h.other q hq).2⟩
  · intro q hq
    exact hkept q (h.forked q hq)

theorem reaped_waited (h : NoneReaped s) (p : ℕ) (how : Termination) :
    Waited { s with
      status := how.waitStatus
      child := Function.update s.child p (.reaped how)
      caller := .testStatus } p how := by
  refine ⟨Function.update_self .., fun q how' hq => ?_, rfl⟩
  by_contra hne
  change Function.update s.child p (.reaped how) q = .reaped how' at hq
  rw [Function.update_of_ne hne] at hq
  exact h q how' hq

/-- The first child that is reaped decides. -/
theorem reaped_own_iff (h : NoneReaped s) (p : ℕ) (how : Termination) :
    OwnReaped { s with
      status := how.waitStatus
      child := Function.update s.child p (.reaped how)
      caller := .testStatus } ↔ s.pid = some p := by
  have hw := reaped_waited h p how
  constructor
  · intro hown
    exact hown p how hw.reaped
  · intro hpid q how' hq
    rw [hw.only q how' hq]
    exact hpid

include hf in
/-- What a step of the caller does to the children, and that it reaps the forked
process when `wait` reports it. -/
theorem callerStep_inv (h : CallInv others s) {result : ℕ} {errno : UInt8}
    (hok : CallsSucceed s (.caller result errno)) :
    CallInv others (callerStep f s result errno).1 ∧
      (OwnReaped (callerStep f s result errno).1 ↔
        OwnReaped s ∧ WaitsForOwn s (.caller result errno)) := by
  obtain ⟨hfamily, hphase⟩ := h
  obtain ⟨rfl, hfresh⟩ := hok
  have hskip (hne : s.caller ≠ .wait) (t : CallState) (hchild : t.child = s.child)
      (hpid : t.pid = s.pid) :
      OwnReaped t ↔ OwnReaped s ∧ WaitsForOwn s (.caller result 0) := by
    have hvacuous : WaitsForOwn s (.caller result 0) := fun hw => absurd hw hne
    rw [and_iff_left hvacuous, OwnReaped, OwnReaped, hchild, hpid]
  unfold CallPhase at hphase
  unfold callerStep
  cases hc : s.caller with
  | fork =>
    simp only [hc] at hphase
    have hne : s.caller ≠ .wait := by rw [hc]; decide
    simp only [if_pos]
    have hnone := forked_noneReaped (f := f) hphase.2 result
    refine ⟨⟨forked_family hfamily (hfresh hc),
      callPhase_of_beforeWait hf.afterFork (Option.some_ne_none result) hnone⟩, ?_⟩
    apply iff_of_true hnone.own
    exact ⟨hphase.2.own, fun hw => absurd hw hne⟩
  | openFile =>
    simp only [hc] at hphase
    simp only [if_pos]
    exact ⟨⟨hfamily.of_same rfl rfl, callPhase_of_beforeWait (Or.inr (Or.inl rfl)) hphase.1 hphase.2⟩,
      hskip (by rw [hc]; decide) _ rfl rfl⟩
  | switchPid =>
    simp only [hc] at hphase
    obtain ⟨pid, hpid⟩ := Option.ne_none_iff_exists'.mp hphase.1
    simp only [hpid]
    exact ⟨⟨hfamily.of_same rfl hpid.symm,
      callPhase_of_beforeWait hf.parentCase (Option.some_ne_none pid) hphase.2⟩,
      hskip (by rw [hc]; decide) _ rfl hpid.symm⟩
  | closeFile =>
    simp only [hc] at hphase
    exact ⟨⟨hfamily.of_same rfl rfl,
      callPhase_of_beforeWait (Or.inr (Or.inr (Or.inr rfl))) hphase.1 hphase.2⟩,
      hskip (by rw [hc]; decide) _ rfl rfl⟩
  | wait =>
    simp only [hc] at hphase
    cases hz : s.child result with
    | zombie how =>
      refine ⟨⟨reaped_family hfamily how, hphase.1, result, how, reaped_waited hphase.2 result how⟩,
        ?_⟩
      rw [reaped_own_iff hphase.2]
      constructor
      · intro hpid
        exact ⟨hphase.2.own, fun _ _ _ => hpid⟩
      · rintro ⟨-, hwaits⟩
        exact hwaits hc how hz
    | _ =>
      -- `wait` blocks
      have hvacuous : WaitsForOwn s (.caller result 0) := by
        intro _ how hzombie
        rw [hz] at hzombie
        cases hzombie
      refine ⟨⟨hfamily, callPhase_of_beforeWait (Or.inr (Or.inr (Or.inr hc))) hphase.1 hphase.2⟩, ?_⟩
      exact (and_iff_left hvacuous).symm
  | testStatus =>
    simp only [hc] at hphase
    obtain ⟨hpid, p, how, hw⟩ := hphase
    refine ⟨⟨hfamily.of_same rfl rfl, hpid, p, how, ⟨hw.reaped, hw.only, hw.status_eq⟩, ?_⟩,
      hskip (by rw [hc]; decide) _ rfl rfl⟩
    rw [hw.status_eq]
    exact status_test_iff how
  | returned b =>
    simp only [hc] at hphase
    refine ⟨⟨hfamily, ?_⟩, hskip (by rw [hc]; exact CallerPc.noConfusion) _ rfl rfl⟩
    simp only [CallPhase, hc]
    exact hphase
  | exited => simp only [hc] at hphase

include hf in
theorem callStep_inv (h : CallInv others s) {step : CallStep} (hok : CallsSucceed s step) :
    CallInv others (callStep f s step).1 ∧
      (OwnReaped (callStep f s step).1 ↔ OwnReaped s ∧ WaitsForOwn s step) := by
  have hrest (hother : ∀ result errno, step ≠ .caller result errno) (hown : WaitsForOwn s step) :
      CallInv others (callStep f s step).1 ∧
        (OwnReaped (callStep f s step).1 ↔ OwnReaped s ∧ WaitsForOwn s step) := by
    have hframe := callStep_frame f s hother
    refine ⟨⟨hframe.family h.family, hframe.callPhase h.phase⟩, ?_⟩
    rw [and_iff_left hown]
    simp only [OwnReaped, hframe.children.reaped_iff, hframe.pid]
  cases step with
  | caller result errno => exact callerStep_inv hf h hok
  | forked errno => exact hrest (fun _ _ => CallStep.noConfusion) trivial
  | write bytes => exact hrest (fun _ _ => CallStep.noConfusion) trivial
  | terminate pid how => exact hrest (fun _ _ => CallStep.noConfusion) trivial

end Caller

/-- When the function has returned, all depends on which child it has reaped. -/
theorem ownResult_iff {others : ℕ → Option (Option Termination)} {s : CallState} {result : Bool}
    (h : CallInv others s) (hret : s.caller = .returned result) :
    (∃ pid, s.pid = some pid ∧ OwnResult others s pid result) ↔ OwnReaped s := by
  have hphase := h.phase
  simp only [CallPhase, hret] at hphase
  obtain ⟨hforked, p, how, hw, hresult⟩ := hphase
  constructor
  · rintro ⟨pid, hpid, hown⟩ q how' hq
    -- the forked process has been reaped, so that nobody else has
    obtain ⟨how'', hr⟩ := hown.reaped
    rw [hw.only q how' hq, ← hw.only pid how'' hr]
    exact hpid
  · intro hown
    have hpid := hown p how hw.reaped
    refine ⟨p, hpid, ?_, ⟨how, hw.reaped⟩, fun q hq => ?_⟩
    · rw [hw.reaped, hresult]
      simp only [ChildState.ended, Option.some.injEq]
    · obtain ⟨hpresent, hne⟩ := h.family.other q hq
      cases hc : s.child q with
      | absent => exact absurd hc hpresent
      | running | zombie => trivial
      | reaped how' =>
        -- that would be the one child that was reaped
        apply hne
        rw [hw.only q how' hc]
        exact hpid

/-- Both functions give the result of the process they forked, reap it and leave
the other children alone, when and only when `wait` reports that process. -/
theorem result_of_own_child_iff {f : ExecFunction} (hf : f = doExec ∨ f = doExecRedirect)
    (others : ℕ → Option (Option Termination)) (file : List UInt8) (status : ℕ)
    {steps : List CallStep}
    (h : (execCall f).Guarded CallsSucceed (callInit others file status) steps) {result : Bool}
    (hret : ((execCall f).final (callInit others file status) steps).caller = .returned result) :
    let s := (execCall f).final (callInit others file status) steps
    (∃ pid, s.pid = some pid ∧ OwnResult others s pid result) ↔
      (execCall f).Guarded WaitsForOwn (callInit others file status) steps := by
  intro s
  have hinit := callInit_inv others file status
  have hinv : CallInv others s := by
    apply h.invariant (CallInv others) _ hinit
    intro s step hs hok
    exact (callStep_inv (forksAndWaits hf) hs hok).1
  have hown : OwnReaped s ↔ OwnReaped (callInit others file status) ∧
      (execCall f).Guarded WaitsForOwn (callInit others file status) steps := by
    apply h.iff_final (CallInv others)
    · intro s step hs hok
      exact (callStep_inv (forksAndWaits hf) hs hok).1
    · intro s step hs hok
      exact (callStep_inv (forksAndWaits hf) hs hok).2
    · exact hinit
  have hnone : NoneReaped (callInit others file status) := hinit.phase.2
  rw [ownResult_iff hinv hret, hown, and_iff_right hnone.own]

/-- The caller has the child 7, which runs on while the command ends with 1. -/
theorem result_of_own_child_iff_busy_sibling :
    let others : ℕ → Option (Option Termination) := fun p => if p = 7 then some none else none
    let steps : List CallStep :=
      [.caller 8 0, .caller 0 0, .forked 0, .terminate 8 (.exited 1), .caller 8 0, .caller 0 0]
    let s := (execCall doExec).final (callInit others [] 0) steps
    (∃ pid, s.pid = some pid ∧ OwnResult others s pid false) ↔
      (execCall doExec).Guarded WaitsForOwn (callInit others [] 0) steps := by
  intro others steps
  exact result_of_own_child_iff (Or.inl rfl) others [] 0 (by decide) (by decide)

/-- The child 7 has exited with 0 before the call. Both functions return true on its
status, while the command they forked is still running, and 7 is gone. -/
theorem earlier_child_is_reaped :
    let others : ℕ → Option (Option Termination) :=
      fun p => if p = 7 then some (some (.exited 0)) else none
    let exec : List CallStep := [.caller 8 0, .caller 0 0, .forked 0, .caller 7 0, .caller 0 0]
    let redirect : List CallStep :=
      [.caller 8 0, .caller 0 0, .caller 0 0, .caller 0 0, .forked 0, .forked 0, .forked 0, .forked 0,
        .caller 7 0, .caller 0 0]
    let s := (execCall doExec).final (callInit others [] 0) exec
    let t := (execCall doExecRedirect).final (callInit others [] 0) redirect
    ((execCall doExec).Guarded CallsSucceed (callInit others [] 0) exec ∧
        s.caller = .returned true ∧ s.pid = some 8 ∧ s.child 8 = .running ∧
        s.child 7 = .reaped (.exited 0) ∧
        ¬∃ pid, s.pid = some pid ∧ OwnResult others s pid true) ∧
      (execCall doExecRedirect).Guarded CallsSucceed (callInit others [] 0) redirect ∧
        t.caller = .returned true ∧ t.pid = some 8 ∧ t.child 8 = .running ∧
        t.child 7 = .reaped (.exited 0) ∧
        ¬∃ pid, t.pid = some pid ∧ OwnResult others t pid true := by
  intro others exec redirect s t
  -- the process that was forked has not been reaped
  have hnot (u : CallState) (hpid : u.pid = some 8) (hrun : u.child 8 = .running) :
      ¬∃ pid, u.pid = some pid ∧ OwnResult others u pid true := by
    rintro ⟨pid, hp, hown⟩
    rw [hpid] at hp
    obtain rfl := Option.some.inj hp
    obtain ⟨how, hr⟩ := hown.reaped
    rw [hrun] at hr
    cases hr
  have hs : s.pid = some 8 ∧ s.child 8 = .running := by decide
  have ht : t.pid = some 8 ∧ t.child 8 = .running := by decide
  exact ⟨⟨by decide, by decide, hs.1, hs.2, by decide, hnot s hs.1 hs.2⟩,
    by decide, by decide, ht.1, ht.2, by decide, hnot t ht.1 ht.2⟩

end ProvenAesd.Systemcalls
