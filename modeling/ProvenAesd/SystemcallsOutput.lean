import ProvenAesd.SystemcallsExec

/-! The file that `do_exec_redirect` leaves. Both processes truncate it, and what the
command has written before the caller does so is lost. -/
namespace ProvenAesd.Systemcalls
open Mealy SeekableFile

/-- What the command has written before the caller truncated the file. -/
def earlyOf : List CallEvent → List UInt8
  | [] => []
  | .truncated :: _ => []
  | e :: events => e.bytes ++ earlyOf events

def lateOf : List CallEvent → List UInt8
  | [] => []
  | .truncated :: events => wroteOf events
  | _ :: events => lateOf events

theorem earlyOf_append_lateOf (os : List CallEvent) : earlyOf os ++ lateOf os = wroteOf os := by
  induction os with
  | nil => rfl
  | cons e os ih =>
    cases e with
    | truncated => rfl
    | _ => simp [earlyOf, lateOf, CallEvent.bytes, ih]

theorem lateOf_concat {os : List CallEvent} (h : .truncated ∈ os) (e : CallEvent) :
    lateOf (os ++ [e]) = lateOf os ++ e.bytes := by
  induction os with
  | nil => exact absurd h List.not_mem_nil
  | cons o os ih =>
    cases o with
    | truncated => exact wroteOf_concat os e
    | _ =>
      rcases List.mem_cons.mp h with h | h
      · cases h
      · exact ih h

theorem earlyOf_concat {os : List CallEvent} (h : .truncated ∈ os) (e : CallEvent) :
    earlyOf (os ++ [e]) = earlyOf os := by
  have hall := earlyOf_append_lateOf (os ++ [e])
  rw [lateOf_concat h, wroteOf_concat, ← earlyOf_append_lateOf os, List.append_assoc] at hall
  exact List.append_cancel_right hall

/-- At the truncation, all that has been written is early. -/
theorem lateOf_concat_truncated {os : List CallEvent} (h : .truncated ∉ os) :
    lateOf (os ++ [.truncated]) = [] := by
  induction os with
  | nil => rfl
  | cons o os ih =>
    obtain ⟨ho, hos⟩ := List.ne_and_not_mem_of_not_mem_cons h
    cases o with
    | truncated => exact absurd rfl ho
    | _ => exact ih hos

def CallerOutput (s : CallState) (os : List CallEvent) : Prop :=
  match s.caller with
  | .fork => .truncated ∉ os ∧ s.forked = .notForked
  | .openFile => .truncated ∉ os
  | .switchPid | .closeFile | .wait | .testStatus | .returned true => .truncated ∈ os
  | .returned false | .exited => True

/-- How far the forked process is with its output. -/
def ForkedOutput (s : CallState) (os : List CallEvent) : Prop :=
  match s.forked with
  | .notForked | .openFile | .returned => wroteOf os = []
  | .dup2 => s.offset = 0 ∧ wroteOf os = []
  | .closeFile | .execv | .command => s.offset = (wroteOf os).length ∧ s.stdoutToFile = true

def Opened : ForkedPc → Prop
  | .notForked | .openFile | .returned => False
  | .dup2 | .closeFile | .execv | .command => True

/-- The file holds the output, with a hole once the caller has truncated it in place
of what had been written until then. -/
structure OutputInv (s : CallState) (os : List CallEvent) : Prop where
  caller : CallerOutput s os
  forked : ForkedOutput s os
  whole : .truncated ∉ os → Opened s.forked → s.file = wroteOf os
  holed : .truncated ∈ os → s.file = sparse (earlyOf os).length (lateOf os)

section Quiet

variable {s t : CallState} {os : List CallEvent} {e : CallEvent}

theorem mem_concat_quiet (he : e ≠ .truncated) : .truncated ∈ os ++ [e] ↔ .truncated ∈ os := by
  simp [he.symm]

/-- A step that neither writes nor truncates. -/
theorem OutputInv.quiet (h : OutputInv s os) (hfile : t.file = s.file)
    (hop : Opened t.forked → Opened s.forked) (he : e ≠ .truncated) (hbytes : e.bytes = [])
    (hcaller : CallerOutput t (os ++ [e])) (hforked : ForkedOutput t (os ++ [e])) :
    OutputInv t (os ++ [e]) := by
  refine ⟨hcaller, hforked, fun hnot ht => ?_, fun hmem => ?_⟩
  · rw [mem_concat_quiet he] at hnot
    rw [hfile, wroteOf_quiet hbytes]
    exact h.whole hnot (hop ht)
  · rw [mem_concat_quiet he] at hmem
    rw [hfile, lateOf_concat hmem, earlyOf_concat hmem, hbytes, List.append_nil]
    exact h.holed hmem

theorem ForkedOutput.quiet (h : ForkedOutput s os) (hforked : t.forked = s.forked)
    (hoffset : t.offset = s.offset) (hstdout : t.stdoutToFile = s.stdoutToFile)
    (hbytes : e.bytes = []) : ForkedOutput t (os ++ [e]) := by
  unfold ForkedOutput at h ⊢
  rw [hforked, hoffset, hstdout, wroteOf_quiet hbytes]
  exact h

/-- A step of anybody but the caller. -/
theorem CallerOutput.other (h : CallerOutput s os) (hc : t.caller = s.caller)
    (hf : s.caller = .fork → t.forked = s.forked) (he : e ≠ .truncated) :
    CallerOutput t (os ++ [e]) := by
  unfold CallerOutput at h ⊢
  rw [hc]
  cases hpc : s.caller with
  | fork =>
    simp only [hpc] at h
    rw [mem_concat_quiet he, hf hpc]
    exact h
  | openFile | switchPid | closeFile | wait | testStatus =>
    simp only [hpc] at h
    simp only [mem_concat_quiet he]
    exact h
  | returned b =>
    cases b with
    | false => trivial
    | true =>
      simp only [hpc] at h
      simp only [mem_concat_quiet he]
      exact h
  | exited => trivial

/-- A step of the caller on which the file does not depend. -/
theorem OutputInv.callerQuiet (h : OutputInv s os) (hfile : t.file = s.file)
    (hforked : t.forked = s.forked) (hoffset : t.offset = s.offset)
    (hstdout : t.stdoutToFile = s.stdoutToFile) (he : e ≠ .truncated) (hbytes : e.bytes = [])
    (hcaller : CallerOutput t (os ++ [e])) : OutputInv t (os ++ [e]) := by
  refine h.quiet hfile ?_ he hbytes hcaller (h.forked.quiet hforked hoffset hstdout hbytes)
  rw [hforked]
  exact id

/-- A step that leaves the caller where it is too. -/
theorem OutputInv.elsewhere (h : OutputInv s os) (hcaller : t.caller = s.caller)
    (hfile : t.file = s.file) (hforked : t.forked = s.forked) (hoffset : t.offset = s.offset)
    (hstdout : t.stdoutToFile = s.stdoutToFile) : OutputInv t (os ++ [.quiet]) :=
  h.callerQuiet hfile hforked hoffset hstdout CallEvent.noConfusion rfl
    (h.caller.other hcaller (fun _ => hforked) CallEvent.noConfusion)

theorem OutputInv.stay (h : OutputInv s os) : OutputInv s (os ++ [.quiet]) :=
  h.elsewhere rfl rfl rfl rfl rfl

/-- Before `fork` there is no forked process. -/
theorem CallerOutput.not_fork (h : CallerOutput s os) (hstart : s.forked ≠ .notForked) :
    s.caller ≠ .fork := by
  intro hc
  simp only [CallerOutput, hc] at h
  exact hstart h.2

end Quiet

section Steps

variable {s : CallState} {os : List CallEvent}

theorem callerStep_output (h : OutputInv s os) (result : ℕ) (errno : UInt8) :
    OutputInv (callerStep doExecRedirect s result errno).1
      (os ++ [(callerStep doExecRedirect s result errno).2]) := by
  have hcaller := h.caller
  unfold CallerOutput at hcaller
  unfold callerStep
  cases hc : s.caller with
  | fork =>
    simp only [hc] at hcaller
    obtain ⟨hnot, hforked⟩ := hcaller
    have hnot' : .truncated ∉ os ++ [CallEvent.quiet] :=
      mt (mem_concat_quiet CallEvent.noConfusion).mp hnot
    by_cases he : errno = 0
    · simp only [if_pos he]
      -- the forked process has still to open the file
      have hnothing : wroteOf os = [] := by
        have hf := h.forked
        simp only [ForkedOutput, hforked] at hf
        exact hf
      refine h.quiet rfl False.elim CallEvent.noConfusion rfl hnot' ?_
      exact (wroteOf_quiet rfl).trans hnothing
    · simp only [if_neg he]
      exact h.callerQuiet rfl rfl rfl rfl CallEvent.noConfusion rfl hnot'
  | openFile =>
    simp only [hc] at hcaller
    by_cases he : errno = 0
    · simp only [if_pos he]
      refine ⟨?_, h.forked.quiet rfl rfl rfl rfl, fun hnot => ?_, fun _ => ?_⟩
      · exact List.mem_append_right os List.mem_cons_self
      · exact absurd (List.mem_append_right os List.mem_cons_self) hnot
      · rw [lateOf_concat_truncated hcaller]
        rfl
    · simp only [if_neg he]
      exact h.callerQuiet rfl rfl rfl rfl CallEvent.noConfusion rfl trivial
  | switchPid =>
    simp only [hc] at hcaller
    cases s.pid with
    | none => exact h.callerQuiet rfl rfl rfl rfl CallEvent.noConfusion rfl trivial
    | some pid =>
      exact h.callerQuiet rfl rfl rfl rfl CallEvent.noConfusion rfl
        (List.mem_append_left _ hcaller)
  | closeFile =>
    simp only [hc] at hcaller
    exact h.callerQuiet rfl rfl rfl rfl CallEvent.noConfusion rfl
      (List.mem_append_left _ hcaller)
  | wait =>
    simp only [hc] at hcaller
    cases s.child result with
    | zombie how =>
      exact h.callerQuiet rfl rfl rfl rfl CallEvent.noConfusion rfl
        (List.mem_append_left _ hcaller)
    | _ => exact h.stay
  | testStatus =>
    simp only [hc] at hcaller
    cases wifexited s.status && wexitstatus s.status == 0 with
    | false => exact h.callerQuiet rfl rfl rfl rfl CallEvent.noConfusion rfl trivial
    | true =>
      exact h.callerQuiet rfl rfl rfl rfl CallEvent.noConfusion rfl
        (List.mem_append_left _ hcaller)
  | returned _ | exited => exact h.stay

/-- A step of the forked process that only takes it to its next statement. -/
theorem OutputInv.advance {t : CallState} (h : OutputInv s os) (hcaller : t.caller = s.caller)
    (hfile : t.file = s.file) (hop : Opened t.forked → Opened s.forked)
    (hstart : s.forked ≠ .notForked) (hforked : ForkedOutput t (os ++ [.quiet])) :
    OutputInv t (os ++ [.quiet]) := by
  refine h.quiet hfile hop CallEvent.noConfusion rfl ?_ hforked
  exact h.caller.other hcaller (fun hc => absurd hc (h.caller.not_fork hstart)) CallEvent.noConfusion

theorem exitForked_output (h : OutputInv s os) (errno : UInt8) :
    OutputInv (s.exitForked errno) (os ++ [.quiet]) :=
  h.elsewhere rfl rfl rfl rfl rfl

theorem forkedStep_output (h : OutputInv s os) (errno : UInt8) :
    OutputInv (forkedStep s errno).1 (os ++ [(forkedStep s errno).2]) := by
  have hwrote : wroteOf (os ++ [.quiet]) = wroteOf os := wroteOf_quiet rfl
  have hforked := h.forked
  unfold ForkedOutput at hforked
  unfold forkedStep
  by_cases halive : s.alive = true
  · rw [if_pos halive]
    cases hf : s.forked with
    | openFile =>
      simp only [hf] at hforked
      have hstart : s.forked ≠ .notForked := by rw [hf]; decide
      by_cases he : errno = 0
      · simp only [if_pos he]
        -- nothing has been written yet, whoever truncates the file first
        have hnothing := earlyOf_append_lateOf os
        rw [hforked, List.append_eq_nil_iff] at hnothing
        have hcaller : CallerOutput { s with file := [], offset := 0, forked := .dup2 }
            (os ++ [.quiet]) :=
          h.caller.other rfl (fun hc => absurd hc (h.caller.not_fork hstart)) CallEvent.noConfusion
        refine ⟨hcaller, ⟨rfl, hwrote.trans hforked⟩, fun _ _ => ?_, fun hmem => ?_⟩
        · exact (hwrote.trans hforked).symm
        · rw [mem_concat_quiet CallEvent.noConfusion] at hmem
          rw [lateOf_concat hmem, hnothing.2]
          rfl
      · simp only [if_neg he]
        exact h.advance rfl rfl False.elim hstart (hwrote.trans hforked)
    | dup2 =>
      simp only [hf] at hforked
      by_cases he : errno = 0
      · simp only [if_pos he]
        refine h.advance rfl rfl (fun _ => by rw [hf]; trivial) (by rw [hf]; decide) ⟨?_, rfl⟩
        rw [hwrote, hforked.2]
        exact hforked.1
      · simp only [if_neg he]
        exact exitForked_output h errno
    | closeFile =>
      simp only [hf] at hforked
      refine h.advance rfl rfl (fun _ => by rw [hf]; trivial) (by rw [hf]; decide) ?_
      rw [← hwrote] at hforked
      exact hforked
    | execv =>
      simp only [hf] at hforked
      by_cases he : errno = 0
      · simp only [if_pos he]
        refine h.advance rfl rfl (fun _ => by rw [hf]; trivial) (by rw [hf]; decide) ?_
        rw [← hwrote] at hforked
        exact hforked
      · simp only [if_neg he]
        exact exitForked_output h errno
    | notForked | command | returned => exact h.stay
  · rw [if_neg halive]
    exact h.stay

/-- The command writes at the end of its output, wherever the file ends by then. -/
theorem commandWrite_output (h : OutputInv s os) (bytes : List UInt8) :
    OutputInv (commandWrite s bytes).1 (os ++ [(commandWrite s bytes).2]) := by
  unfold commandWrite
  by_cases hrun : s.alive = true ∧ s.forked = .command
  · have hforked := h.forked
    simp only [ForkedOutput, hrun.2] at hforked
    obtain ⟨hoffset, hstdout⟩ := hforked
    have hne : CallEvent.wrote bytes ≠ .truncated := CallEvent.noConfusion
    have hlength : (wroteOf (os ++ [.wrote bytes])).length = s.offset+bytes.length := by
      rw [wroteOf_concat, List.length_append, ← hoffset]
      rfl
    rw [if_pos hrun, if_pos hstdout]
    refine ⟨h.caller.other rfl (fun _ => rfl) hne, ?_, fun hnot _ => ?_, fun hmem => ?_⟩
    · simp only [ForkedOutput, hrun.2]
      exact ⟨hlength.symm, hstdout⟩
    · rw [mem_concat_quiet hne] at hnot
      have hfile := h.whole hnot (by rw [hrun.2]; trivial)
      change writeAt s.file s.offset bytes = wroteOf (os ++ [.wrote bytes])
      rw [hfile, hoffset, writeAt_length, wroteOf_concat]
      rfl
    · rw [mem_concat_quiet hne] at hmem
      have hfile := h.holed hmem
      change writeAt s.file s.offset bytes = _
      rw [← earlyOf_append_lateOf os, List.length_append] at hoffset
      rw [hfile, hoffset, writeAt_sparse, earlyOf_concat hmem, lateOf_concat hmem]
      rfl
  · rw [if_neg hrun]
    exact h.stay

theorem terminate_output (h : OutputInv s os) (pid : ℕ) (how : Termination) :
    OutputInv (terminate s pid how).1 (os ++ [(terminate s pid how).2]) :=
  h.elsewhere rfl rfl rfl rfl rfl

theorem callStep_output (h : OutputInv s os) (step : CallStep) :
    OutputInv (callStep doExecRedirect s step).1 (os ++ [(callStep doExecRedirect s step).2]) := by
  cases step with
  | caller result errno => exact callerStep_output h result errno
  | forked errno => exact forkedStep_output h errno
  | write bytes => exact commandWrite_output h bytes
  | terminate pid how => exact terminate_output h pid how

end Steps

/-- When `do_exec_redirect` returns true, the file holds what the command has written
if nothing of it was written before the caller opened the file, and otherwise only
if that was NULs and more was written later. -/
theorem output_survives_iff (others : ℕ → Option (Option Termination)) (file : List UInt8)
    (status : ℕ) (steps : List CallStep)
    (hret : ((execCall doExecRedirect).final (callInit others file status) steps).caller =
      .returned true) :
    let s := (execCall doExecRedirect).final (callInit others file status) steps
    let events := (execCall doExecRedirect).outputs (callInit others file status) steps
    s.file = wroteOf events ↔
      earlyOf events = [] ∨ (lateOf events ≠ [] ∧ ∀ b ∈ earlyOf events, b = 0) := by
  intro s events
  have hinv : OutputInv s events := by
    apply ((execCall doExecRedirect).guarded_true _ steps).history fun s _ os => OutputInv s os
    · exact ⟨⟨List.not_mem_nil, rfl⟩, rfl, fun _ hop => hop.elim, fun hmem => nomatch hmem⟩
    · intro s _ os step hs _
      exact callStep_output hs step
  have hcaller := hinv.caller
  simp only [CallerOutput, show s.caller = .returned true from hret] at hcaller
  rw [hinv.holed hcaller, ← earlyOf_append_lateOf events]
  exact sparse_eq_append_iff (earlyOf events) (lateOf events)

/-- "(" is written before the caller opens the file, and the command exits with 0. -/
def lateTruncation : List CallStep :=
  [.caller 8 0, .forked 0, .forked 0, .forked 0, .forked 0, .write [40], .caller 0 0, .caller 0 0,
    .caller 0 0, .terminate 8 (.exited 0), .caller 8 0, .caller 0 0]

theorem output_survives_iff_late_truncation :
    let init := callInit (fun _ => none) [] 0
    let events := (execCall doExecRedirect).outputs init lateTruncation
    ((execCall doExecRedirect).final init lateTruncation).file = wroteOf events ↔
      earlyOf events = [] ∨ (lateOf events ≠ [] ∧ ∀ b ∈ earlyOf events, b = 0) :=
  output_survives_iff (fun _ => none) [] 0 lateTruncation (by decide)

/-- The caller's `open` wipes out what the command has written, and the call succeeds. -/
theorem late_truncation_loses_output :
    let init := callInit (fun _ => none) [] 0
    let s := (execCall doExecRedirect).final init lateTruncation
    let events := (execCall doExecRedirect).outputs init lateTruncation
    (execCall doExecRedirect).Guarded CallsSucceed init lateTruncation ∧
      s.caller = .returned true ∧ s.child 8 = .reaped (.exited 0) ∧
      wroteOf events = [40] ∧ s.file = [] ∧ s.file ≠ wroteOf events := by
  decide

end ProvenAesd.Systemcalls
