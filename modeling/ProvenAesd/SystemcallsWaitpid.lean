import ProvenAesd.MealyRuns
import ProvenAesd.SeekableFile
import ProvenAesd.SystemcallsChildren

/-! `do_exec` and `do_exec_redirect` of `systemcalls_1.c`, one statement at a time. Here
the file is opened before the fork, and `waitpid` waits for the forked process alone. -/
namespace ProvenAesd.Systemcalls1
open Mealy SeekableFile
open Systemcalls (Termination ChildState CallEvent childState forkedRuns setForked terminateChild)

/-- The variable arguments, of which there is one at least: `command[0]` and the others. -/
structure Command where
  path : String
  args : List String

inductive CallerPc
  | openFile
  | fork
  | testPid
  | closeFile
  | waitpid
  | testStatus
  | returned (result : Bool)
  | exited
  deriving DecidableEq, Repr

/-- Where the forked process is. As the command it has the `argv` it was given; with a
`message` in its output buffer it is about to exit. -/
inductive ForkedPc
  | notForked
  | dup2Stdout
  | dup2Stderr
  | closeFile
  | execv
  | command (path : String) (argv : List String)
  | failed (message : String)
  deriving DecidableEq, Repr

structure ExecFunction where
  name : String
  start : CallerPc
  parentCase : CallerPc
  childStart : ForkedPc

def doExec : ExecFunction := ⟨"do_exec", .fork, .waitpid, .execv⟩

def doExecRedirect : ExecFunction := ⟨"do_exec_redirect", .openFile, .closeFile, .dup2Stdout⟩

structure ExecState where
  caller : CallerPc
  /-- `pid`; none for -1, and before `fork`. -/
  pid : Option ℕ
  status : ℤ
  /-- The caller has the descriptor `fd` open. -/
  fd : Bool
  child : ℕ → ChildState
  forked : ForkedPc
  /-- The content of `outputfile`. -/
  file : List UInt8
  /-- The offset of the one description of it. -/
  offset : ℕ
  stdoutToFile : Bool
  stderrToFile : Bool

inductive ExecStep
  /-- `fork` returns `pid`; a call with an `errno` fails. -/
  | caller (pid : ℕ) (errno : UInt8)
  | forked (errno : UInt8)
  | write (stderr : Bool) (bytes : List UInt8)
  | terminate (pid : ℕ) (how : Termination)

def ECHILD : UInt8 := 10

def callerStep (f : ExecFunction) (s : ExecState) (pid : ℕ) (errno : UInt8) : ExecState × CallEvent :=
  match s.caller with
  | .openFile =>
    if errno = 0 then ({ s with fd := true, file := [], offset := 0, caller := .fork }, .truncated)
    else ({ s with caller := .exited }, .quiet)
  | .fork =>
    if errno = 0 then
      ({ s with
         pid := some pid
         child := Function.update s.child pid .running
         forked := f.childStart
         caller := .testPid }, .quiet)
    else ({ s with pid := none, caller := .testPid }, .quiet)
  | .testPid =>
    match s.pid with
    | none => ({ s with caller := .exited }, .quiet)
    | some _ => ({ s with caller := f.parentCase }, .quiet)
  | .closeFile => ({ s with fd := false, caller := .waitpid }, .quiet)
  | .waitpid =>
    if errno = 0 then
      match s.pid with
      | none => (s, .quiet)
      | some pid =>
        match s.child pid with
        | .zombie how =>
          ({ s with
             status := how.waitStatus
             child := Function.update s.child pid (.reaped how)
             caller := .testStatus }, .reaped pid)
        -- it blocks
        | _ => (s, .quiet)
    -- the child has gone without anybody waiting for it
    else if errno = ECHILD then
      ({ s with child := setForked s.child s.pid .absent, caller := .returned false }, .quiet)
    else ({ s with caller := .returned false }, .quiet)
  | .testStatus => ({ s with caller := .returned (s.status != -1) }, .quiet)
  | .returned _ | .exited => (s, .quiet)

def ExecState.alive (s : ExecState) : Bool := forkedRuns s.child s.pid

/-- The forked process writes to a descriptor, which may be that of the file. -/
def ExecState.output (s : ExecState) (toFile : Bool) (bytes : List UInt8) : ExecState :=
  if toFile then
    { s with file := writeAt s.file s.offset bytes, offset := s.offset+bytes.length }
  else s

def ExecState.exitForked (s : ExecState) : ExecState :=
  { s with child := setForked s.child s.pid (.zombie (.exited 255)) }

/-- `unflushed` is what the output buffer of the caller holds at the fork. The forked
process has a copy of it, and `exit` writes it out behind the error message. -/
def forkedStep (f : ExecFunction) (command : Command) (unflushed : List UInt8) (s : ExecState)
    (errno : UInt8) : ExecState × CallEvent :=
  if s.alive then
    match s.forked with
    | .dup2Stdout =>
      if errno = 0 then ({ s with stdoutToFile := true, forked := .dup2Stderr }, .quiet)
      else ({ s with forked := .failed (f.name ++ ": Error in child with dup2\n") }, .quiet)
    | .dup2Stderr =>
      if errno = 0 then ({ s with stderrToFile := true, forked := .closeFile }, .quiet)
      else ({ s with forked := .failed (f.name ++ ": Error in child with dup2\n") }, .quiet)
    | .closeFile => ({ s with forked := .execv }, .quiet)
    | .execv =>
      -- the arguments are handed over without `command[0]`
      if errno = 0 then ({ s with forked := .command command.path command.args }, .quiet)
      else ({ s with forked := .failed (f.name ++ ": ERROR execv failed\n") }, .quiet)
    | .failed message =>
      let bytes := unflushed ++ message.toUTF8.toList
      ((s.output s.stdoutToFile bytes).exitForked, .wrote bytes)
    | .notForked | .command _ _ => (s, .quiet)
  else (s, .quiet)

def ForkedPc.isCommand : ForkedPc → Bool
  | command _ _ => true
  | _ => false

def commandWrite (s : ExecState) (stderr : Bool) (bytes : List UInt8) : ExecState × CallEvent :=
  if s.alive && s.forked.isCommand then
    (s.output (if stderr then s.stderrToFile else s.stdoutToFile) bytes, .wrote bytes)
  else (s, .quiet)

/-- The forked process has exits of its own until it is the command. -/
def terminate (s : ExecState) (pid : ℕ) (how : Termination) : ExecState × CallEvent :=
  ({ s with child := terminateChild s.child s.pid s.forked.isCommand pid how }, .quiet)

def execStep (f : ExecFunction) (command : Command) (unflushed : List UInt8) (s : ExecState) :
    ExecStep → ExecState × CallEvent
  | .caller pid errno => callerStep f s pid errno
  | .forked errno => forkedStep f command unflushed s errno
  | .write stderr bytes => commandWrite s stderr bytes
  | .terminate pid how => terminate s pid how

def execCall (f : ExecFunction) (command : Command) (unflushed : List UInt8) :
    Machine ExecState ExecStep CallEvent := ⟨execStep f command unflushed⟩

def execInit (f : ExecFunction) (others : ℕ → Option (Option Termination)) (file : List UInt8)
    (status : ℤ) : ExecState where
  caller := f.start
  pid := none
  status := status
  fd := false
  child p := childState (others p)
  forked := .notForked
  file := file
  offset := 0
  stdoutToFile := false
  stderrToFile := false

/-- `fork` returns a pid that no child has, and `waitpid` finds the child: SIGCHLD is not
ignored, which would let the children go when they end. -/
def KernelAnswers (s : ExecState) : ExecStep → Prop
  | .caller pid errno =>
    (s.caller = .fork → errno = 0 → s.child pid = .absent) ∧ (s.caller = .waitpid → errno ≠ ECHILD)
  | .forked _ | .write _ _ | .terminate _ _ => True

instance (s : ExecState) (step : ExecStep) : Decidable (KernelAnswers s step) :=
  match step with
  | .caller _ _ => inferInstanceAs (Decidable ((_ → _ → _) ∧ (_ → _)))
  | .forked _ | .write _ _ | .terminate _ _ => inferInstanceAs (Decidable True)

end ProvenAesd.Systemcalls1
