import Mathlib

/-! The children of a process, and what is seen of them while one of the functions that fork
and wait runs. -/
namespace ProvenAesd.Systemcalls

/-- A signal that can end a process; 0 and 127 have another meaning in a status. -/
structure Signal where
  num : ℕ
  pos : 0 < num
  lt : num < 127
  deriving DecidableEq, Repr

inductive Termination
  | exited (code : UInt8)
  | signaled (signal : Signal) (coreDumped : Bool)
  deriving DecidableEq, Repr

def Termination.waitStatus : Termination → ℕ
  | .exited code => code.toNat*2^8
  | .signaled signal coreDumped => signal.num+if coreDumped then 2^7 else 0

inductive ChildState
  | absent
  | running
  | zombie (how : Termination)
  | reaped (how : Termination)
  deriving DecidableEq, Repr

namespace ChildState

def ended : ChildState → Option Termination
  | absent | running => none
  | zombie how | reaped how => some how

/-- `wait` can still report the child, now or later. -/
def Waitable : ChildState → Prop
  | running | zombie _ => True
  | absent | reaped _ => False

instance : (c : ChildState) → Decidable c.Waitable
  | running | zombie _ => inferInstanceAs (Decidable True)
  | absent | reaped _ => inferInstanceAs (Decidable False)

end ChildState

/-- The caller's other children: still running, or ended and not waited for. -/
def childState : Option (Option Termination) → ChildState
  | none => .absent
  | some none => .running
  | some (some how) => .zombie how

def forkedRuns (child : ℕ → ChildState) (pid : Option ℕ) : Bool :=
  pid.any fun pid => child pid == .running

def setForked (child : ℕ → ChildState) (pid : Option ℕ) (state : ChildState) : ℕ → ChildState :=
  match pid with
  | none => child
  | some pid => Function.update child pid state

/-- A signal can end a running child at any time, and one that was not forked here may also
exit. The forked one does if `exits`. -/
def canEnd (child : ℕ → ChildState) (pid : Option ℕ) (exits : Bool) (p : ℕ) (how : Termination) :
    Bool :=
  child p == .running &&
    match how with
    | .signaled _ _ => true
    | .exited _ => pid != some p || exits

def terminateChild (child : ℕ → ChildState) (pid : Option ℕ) (exits : Bool) (p : ℕ)
    (how : Termination) : ℕ → ChildState :=
  if canEnd child pid exits p how then Function.update child p (.zombie how) else child

/-- Some of the running children have ended since. -/
def EndedSince (child later : ℕ → ChildState) : Prop :=
  ∀ p, later p = child p ∨ child p = .running ∧ ∃ how, later p = .zombie how

section Ended

variable {child later : ℕ → ChildState} {pid : Option ℕ}

theorem EndedSince.refl (child : ℕ → ChildState) : EndedSince child child := fun _ => Or.inl rfl

theorem EndedSince.update {p : ℕ} (hrun : child p = .running) (how : Termination) :
    EndedSince child (Function.update child p (.zombie how)) := by
  intro q
  by_cases hq : q = p
  · rw [hq]
    exact Or.inr ⟨hrun, how, Function.update_self ..⟩
  · exact Or.inl (Function.update_of_ne hq ..)

theorem forkedRuns_iff :
    forkedRuns child pid = true ↔ ∃ p, pid = some p ∧ child p = .running := by
  simp [forkedRuns, Option.any_eq_true]

/-- The forked process exits. -/
theorem EndedSince.setForked (h : forkedRuns child pid = true) (how : Termination) :
    EndedSince child (setForked child pid (.zombie how)) := by
  obtain ⟨p, rfl, hrun⟩ := forkedRuns_iff.mp h
  exact EndedSince.update hrun how

theorem EndedSince.terminateChild (child : ℕ → ChildState) (pid : Option ℕ) (exits : Bool) (p : ℕ)
    (how : Termination) : EndedSince child (terminateChild child pid exits p how) := by
  unfold Systemcalls.terminateChild
  by_cases h : canEnd child pid exits p how = true
  · rw [if_pos h]
    simp only [canEnd, Bool.and_eq_true, beq_iff_eq] at h
    exact EndedSince.update h.1 how
  · rw [if_neg h]
    exact EndedSince.refl child

variable (h : EndedSince child later) (p : ℕ)

include h

theorem EndedSince.absent_iff : later p = .absent ↔ child p = .absent := by
  rcases h p with heq | ⟨hrun, how, hz⟩
  · rw [heq]
  · simp [hrun, hz]

theorem EndedSince.reaped_iff (how : Termination) : later p = .reaped how ↔ child p = .reaped how := by
  rcases h p with heq | ⟨hrun, how, hz⟩
  · rw [heq]
  · simp [hrun, hz]

theorem EndedSince.waitable (hw : (child p).Waitable) : (later p).Waitable := by
  rcases h p with heq | ⟨-, how, hz⟩
  · rw [heq]
    exact hw
  · rw [hz]
    trivial

end Ended

inductive CallEvent
  | quiet
  /-- The caller has opened the file with `O_TRUNC`. -/
  | truncated
  /-- The command has written to its standard output. -/
  | wrote (bytes : List UInt8)
  | reaped (pid : ℕ)
  deriving DecidableEq, Repr

def CallEvent.bytes : CallEvent → List UInt8
  | wrote bytes => bytes
  | quiet | truncated | reaped _ => []

def wroteOf (events : List CallEvent) : List UInt8 := events.flatMap CallEvent.bytes

@[simp] theorem wroteOf_concat (os : List CallEvent) (e : CallEvent) :
    wroteOf (os ++ [e]) = wroteOf os ++ e.bytes := by
  simp [wroteOf]

@[simp] theorem wroteOf_cons (e : CallEvent) (os : List CallEvent) :
    wroteOf (e :: os) = e.bytes ++ wroteOf os := rfl

theorem wroteOf_quiet {os : List CallEvent} {e : CallEvent} (h : e.bytes = []) :
    wroteOf (os ++ [e]) = wroteOf os := by
  rw [wroteOf_concat, h, List.append_nil]

end ProvenAesd.Systemcalls
