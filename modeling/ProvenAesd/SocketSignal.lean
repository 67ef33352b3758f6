import ProvenAesd.SocketReaping

/-! `sigHandlerFunction`, which a signal makes the main thread run in the middle of its
accept and reap loop. Main does not come back to the loop; the session threads go on
until the handler exits. -/
namespace ProvenAesd.Server
open Mealy

inductive HandlerPc
  | testCount
  | loopTest
  | takeHead
  | testFd
  | join
  | joining
  | countDown
  | testSocket
  | closeSocket
  | removeHead
  | freeNode
  | cleanUp
  | exited
  deriving DecidableEq, Repr

structure ShutdownState where
  server : ServerState
  /-- None until the signal arrives. -/
  handler : Option HandlerPc

/-- What a step does, and the list nodes it reads or writes. -/
inductive ShutdownEvent
  | server (event : ServerEvent) (uses : List ℕ)
  | handler (event : ServerEvent) (uses : List ℕ)
  /-- The signal arrives while these nodes are on the list. -/
  | signalled (listed : List ℕ)
  deriving DecidableEq, Repr

/-- The list nodes that a statement of main touches. -/
def mainUses (s : ServerState) : List ℕ :=
  match s.pc with
  | .populate => [s.nextNode]
  | .createThread | .recordTid | .insertHead | .testFd | .join | .freeNode => [s.datap]
  | .removeHead => s.head.take 1
  | .accept | .countThread | .loopTest | .takeHead | .joining | .decrement => []

/-- A session uses its node up to the store of -1, the last time it looks at it. -/
def threadUses (s : ServerState) (n : ℕ) : List ℕ :=
  match s.thread n with
  | .working | .socketClosed => [n]
  | .notCreated | .fdReset | .ended | .joined => []

/-- One statement of the handler, on the same variables that main uses. -/
def handlerStep (s : ServerState) : HandlerPc → ShutdownState × ShutdownEvent
  | .testCount =>
    if s.threadCount > 0 then (⟨s, some .loopTest⟩, .handler .quiet [])
    else (⟨s, some .cleanUp⟩, .handler .quiet [])
  | .loopTest =>
    match s.head with
    | [] => (⟨s, some .cleanUp⟩, .handler .quiet [])
    | _ :: _ => (⟨s, some .takeHead⟩, .handler .quiet [])
  | .takeHead =>
    match s.head with
    | [] => (⟨s, some .takeHead⟩, .handler .quiet [])
    | n :: _ => (⟨{ s with datap := n }, some .testFd⟩, .handler (.took n) [])
  | .testFd =>
    if (s.node s.datap).clientSocketFd ≥ 0 then (⟨s, some .join⟩, .handler .quiet [s.datap])
    else (⟨s, some .testSocket⟩, .handler .quiet [s.datap])
  | .join => (⟨s, some .joining⟩, .handler (.joinStarted (s.node s.datap).tid) [s.datap])
  | .joining =>
    if s.thread (s.node s.datap).tid = .ended then
      (⟨{ s with thread := Function.update s.thread (s.node s.datap).tid .joined },
        some .countDown⟩, .handler (.joined (s.node s.datap).tid) [])
    else (⟨s, some .joining⟩, .handler .quiet [])
  -- the log line behind it reads the node
  | .countDown =>
    (⟨{ s with threadCount := s.threadCount-1 }, some .testSocket⟩, .handler .quiet [s.datap])
  | .testSocket =>
    if (s.node s.datap).clientSocketFd ≠ -1 then
      (⟨s, some .closeSocket⟩, .handler .quiet [s.datap])
    else (⟨s, some .removeHead⟩, .handler .quiet [s.datap])
  | .closeSocket => (⟨s, some .removeHead⟩, .handler (.closedSocket s.datap) [s.datap])
  | .removeHead =>
    match s.head with
    | [] => (⟨s, some .removeHead⟩, .handler .quiet [])
    | n :: rest => (⟨{ s with head := rest }, some .freeNode⟩, .handler (.removed n) [n])
  | .freeNode => (⟨s, some .loopTest⟩, .handler (.freed s.datap) [s.datap])
  -- the mutex, the server socket, the address list and `exit`
  | .cleanUp => (⟨s, some .exited⟩, .handler .quiet [])
  | .exited => (⟨s, some .exited⟩, .handler .quiet [])

inductive ShutdownStep
  | main (fd : ℕ)
  | thread (n : ℕ)
  | signal
  deriving DecidableEq, Repr

/-- The main thread is in its loop or in the handler, and with `exit` the session
threads are gone. -/
def shutdownStep (s : ShutdownState) : ShutdownStep → ShutdownState × ShutdownEvent
  | .main fd =>
    match s.handler with
    | none => (⟨(mainStep s.server fd).1, none⟩, .server (mainStep s.server fd).2 (mainUses s.server))
    | some pc => handlerStep s.server pc
  | .thread n =>
    if s.handler = some .exited then (s, .server .quiet [])
    else
      (⟨(threadStep s.server n).1, s.handler⟩,
        .server (threadStep s.server n).2 (threadUses s.server n))
  | .signal =>
    match s.handler with
    | none => (⟨s.server, some .testCount⟩, .signalled s.server.head)
    | some _ => (s, .server .quiet [])

def shutdown : Machine ShutdownState ShutdownStep ShutdownEvent := ⟨shutdownStep⟩

def shutdownInit : ShutdownState := ⟨serverInit, none⟩

/-! The record of a run. -/

namespace ServerEvent

def joinStarts : ServerEvent → List ℕ
  | joinStarted tid => [tid]
  | _ => []

def frees : ServerEvent → List ℕ
  | freed n => [n]
  | _ => []

def closes : ServerEvent → List ℕ
  | closedSocket n => [n]
  | _ => []

def takes : ServerEvent → List ℕ
  | took n => [n]
  | _ => []

def removes : ServerEvent → List ℕ
  | removed n => [n]
  | _ => []

end ServerEvent

namespace ShutdownEvent

def event : ShutdownEvent → ServerEvent
  | server event _ | handler event _ => event
  | signalled _ => .quiet

def handlerEvent : ShutdownEvent → ServerEvent
  | handler event _ => event
  | server _ _ | signalled _ => .quiet

def uses : ShutdownEvent → List ℕ
  | server _ uses | handler _ uses => uses
  | signalled _ => []

def listed : ShutdownEvent → List ℕ
  | signalled listed => listed
  | server _ _ | handler _ _ => []

end ShutdownEvent

/-- What all threads together did of one kind, in order. -/
def logOf (p : ServerEvent → List ℕ) (os : List ShutdownEvent) : List ℕ := os.flatMap fun o => p o.event

def handlerLog (p : ServerEvent → List ℕ) (os : List ShutdownEvent) : List ℕ :=
  os.flatMap fun o => p o.handlerEvent

def listedOf (os : List ShutdownEvent) : List ℕ := os.flatMap ShutdownEvent.listed

/-- No step uses a node that is in `gone` or was freed by an earlier step. -/
def UsesLive (gone : List ℕ) : List ShutdownEvent → Prop
  | [] => True
  | o :: os => (∀ n ∈ o.uses, n ∉ gone) ∧ UsesLive (gone ++ o.event.frees) os

instance decidableUsesLive (gone : List ℕ) : (os : List ShutdownEvent) → Decidable (UsesLive gone os)
  | [] => inferInstanceAs (Decidable True)
  | o :: os =>
    haveI := decidableUsesLive (gone ++ o.event.frees) os
    inferInstanceAs (Decidable (_ ∧ _))

def handlerPass (s : ShutdownState) : List ℕ :=
  match s.handler with
  | some .testFd | some .join | some .joining | some .countDown | some .testSocket
  | some .closeSocket | some .removeHead => [s.server.datap]
  | _ => []

/-- The run has cleaned up once: no thread is joined twice, no node freed twice or
used after that, no client socket closed twice; a pass of the handler's loop removes
the node it took; and when the handler exits it has freed what was on the list. -/
structure CleanShutdown (s : ShutdownState) (os : List ShutdownEvent) : Prop where
  joins : (logOf ServerEvent.joinStarts os).Nodup
  frees : (logOf ServerEvent.frees os).Nodup
  uses : UsesLive [] os
  closes : (logOf ServerEvent.closes os).Nodup
  passes : handlerLog ServerEvent.takes os =
    handlerLog ServerEvent.removes os ++ handlerPass s
  freed : s.handler = some .exited →
    s.server.head = [] ∧ handlerLog ServerEvent.frees os = listedOf os

/-- The handler does not start a join while main is inside one. -/
def JoinsAlone (s : ShutdownState) : ShutdownStep → Prop
  | .main _ => s.handler = some .join → s.server.pc ≠ .joining
  | .thread _ | .signal => True

instance (s : ShutdownState) (step : ShutdownStep) : Decidable (JoinsAlone s step) :=
  match step with
  | .main _ => inferInstanceAs (Decidable (_ → _))
  | .thread _ | .signal => inferInstanceAs (Decidable True)

end ProvenAesd.Server
