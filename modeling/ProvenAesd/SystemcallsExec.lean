import ProvenAesd.MealyRuns
import ProvenAesd.SeekableFile
import ProvenAesd.SystemcallsChildren

/-! `do_exec` and `do_exec_redirect` of `systemcalls.c`, one statement at a time: the
caller, the process it forks, and the other children the caller has. What the
callees decide is part of each step. -/
namespace ProvenAesd.Systemcalls
open Mealy SeekableFile

def wifexited (status : ℕ) : Bool := status%2^7 == 0

def wexitstatus (status : ℕ) : ℕ := status/2^8%2^8

inductive CallerPc
  | fork
  | openFile
  | switchPid
  | closeFile
  | wait
  | testStatus
  | returned (result : Bool)
  | exited
  deriving DecidableEq, Repr

/-- Where the forked process is; `command` is what `execv` has made of it, and
`returned` a second copy of the caller. -/
inductive ForkedPc
  | notForked
  | openFile
  | dup2
  | closeFile
  | execv
  | command
  | returned
  deriving DecidableEq, Repr

/-- Where the functions differ: what follows `fork` in the caller, what its case of
the `switch` starts with, and what the forked process starts with. -/
structure ExecFunction where
  afterFork : CallerPc
  parentCase : CallerPc
  childStart : ForkedPc

def doExec : ExecFunction := ⟨.switchPid, .wait, .execv⟩

/-- The file is opened behind `fork` and before the `switch`, by both processes. -/
def doExecRedirect : ExecFunction := ⟨.openFile, .closeFile, .openFile⟩

structure CallState where
  caller : CallerPc
  /-- `pid`; none for -1, and before `fork`. -/
  pid : Option ℕ
  status : ℕ
  child : ℕ → ChildState
  forked : ForkedPc
  /-- The content of `outputfile`. -/
  file : List UInt8
  /-- The offset of the description that the forked process has opened. -/
  offset : ℕ
  /-- Whether the standard output of the forked process is that description. -/
  stdoutToFile : Bool

inductive CallStep
  /-- `result` is the pid that `fork` or `wait` returns; a call with an `errno` fails. -/
  | caller (result : ℕ) (errno : UInt8)
  | forked (errno : UInt8)
  | write (bytes : List UInt8)
  | terminate (pid : ℕ) (how : Termination)
  deriving DecidableEq, Repr

def callerStep (f : ExecFunction) (s : CallState) (result : ℕ) (errno : UInt8) :
    CallState × CallEvent :=
  match s.caller with
  | .fork =>
    if errno = 0 then
      ({ s with
         pid := some result
         child := Function.update s.child result .running
         forked := f.childStart
         caller := f.afterFork }, .quiet)
    else ({ s with pid := none, caller := f.afterFork }, .quiet)
  | .openFile =>
    if errno = 0 then ({ s with file := [], caller := .switchPid }, .truncated)
    else ({ s with caller := .returned false }, .quiet)
  | .switchPid =>
    match s.pid with
    | none => ({ s with caller := .exited }, .quiet)
    | some _ => ({ s with caller := f.parentCase }, .quiet)
  | .closeFile => ({ s with caller := .wait }, .quiet)
  -- any child that has ended will do, and without one `wait` blocks
  | .wait =>
    match s.child result with
    | .zombie how =>
      ({ s with
         status := how.waitStatus
         child := Function.update s.child result (.reaped how)
         caller := .testStatus }, .reaped result)
    | _ => (s, .quiet)
  | .testStatus =>
    ({ s with caller := .returned (wifexited s.status && wexitstatus s.status == 0) }, .quiet)
  | .returned _ | .exited => (s, .quiet)

def CallState.alive (s : CallState) : Bool := forkedRuns s.child s.pid

def CallState.exitForked (s : CallState) (errno : UInt8) : CallState :=
  { s with child := setForked s.child s.pid (.zombie (.exited errno)) }

def forkedStep (s : CallState) (errno : UInt8) : CallState × CallEvent :=
  if s.alive then
    match s.forked with
    | .openFile =>
      if errno = 0 then ({ s with file := [], offset := 0, forked := .dup2 }, .quiet)
      else ({ s with forked := .returned }, .quiet)
    | .dup2 =>
      if errno = 0 then ({ s with stdoutToFile := true, forked := .closeFile }, .quiet)
      else (s.exitForked errno, .quiet)
    -- the standard output keeps the description open
    | .closeFile => ({ s with forked := .execv }, .quiet)
    | .execv =>
      if errno = 0 then ({ s with forked := .command }, .quiet) else (s.exitForked errno, .quiet)
    | .notForked | .command | .returned => (s, .quiet)
  else (s, .quiet)

def commandWrite (s : CallState) (bytes : List UInt8) : CallState × CallEvent :=
  if s.alive ∧ s.forked = .command then
    if s.stdoutToFile then
      ({ s with
         file := writeAt s.file s.offset bytes
         offset := s.offset+bytes.length }, .wrote bytes)
    else (s, .wrote bytes)
  else (s, .quiet)

/-- The forked process gets to an `exit` of its own as the command, or as the copy of the
caller. -/
def terminate (s : CallState) (pid : ℕ) (how : Termination) : CallState × CallEvent :=
  let exits := s.forked == .command || s.forked == .returned
  ({ s with child := terminateChild s.child s.pid exits pid how }, .quiet)

def callStep (f : ExecFunction) (s : CallState) : CallStep → CallState × CallEvent
  | .caller result errno => callerStep f s result errno
  | .forked errno => forkedStep s errno
  | .write bytes => commandWrite s bytes
  | .terminate pid how => terminate s pid how

def execCall (f : ExecFunction) : Machine CallState CallStep CallEvent := ⟨callStep f⟩

def callInit (others : ℕ → Option (Option Termination)) (file : List UInt8) (status : ℕ) :
    CallState where
  caller := .fork
  pid := none
  status := status
  child p := childState (others p)
  forked := .notForked
  file := file
  offset := 0
  stdoutToFile := false

/-- `fork` returns a pid that no child has, and no call fails. -/
def CallsSucceed (s : CallState) : CallStep → Prop
  | .caller result errno => errno = 0 ∧ (s.caller = .fork → s.child result = .absent)
  | .forked errno => errno = 0
  | .write _ | .terminate _ _ => True

instance (s : CallState) (step : CallStep) : Decidable (CallsSucceed s step) :=
  match step with
  | .caller _ _ => inferInstanceAs (Decidable (_ ∧ (_ → _)))
  | .forked errno => inferInstanceAs (Decidable (errno = 0))
  | .write _ | .terminate _ _ => inferInstanceAs (Decidable True)

end ProvenAesd.Systemcalls
