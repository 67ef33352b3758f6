import ProvenAesd.MealyRuns

/-! The accept and reap loop of `aesdsocket.c` next to its session threads, one
statement at a time. List nodes are named by the order of their allocation, and a
thread by the node it was given. -/
namespace ProvenAesd.Server
open Mealy

/-- How far a session thread has come. What it does before it closes its socket
does not touch what main looks at. -/
inductive ThreadPhase
  | notCreated
  | working
  | socketClosed
  | fdReset
  | ended
  | joined
  deriving DecidableEq, Repr

inductive MainPc
  | accept
  | populate
  | createThread
  | recordTid
  | countThread
  | insertHead
  | loopTest
  | takeHead
  | testFd
  | join
  | joining
  | removeHead
  | freeNode
  | decrement
  deriving DecidableEq, Repr

/-- `slist_data_t`, less what only the session and the log use. -/
structure ListNode where
  tid : ℕ
  clientSocketFd : ℤ
  deriving DecidableEq, Repr

structure ServerState where
  pc : MainPc
  /-- `g_head`, first node first. -/
  head : List ℕ
  node : ℕ → ListNode
  /-- `g_datap`, which is zero for NULL. -/
  datap : ℕ
  nextNode : ℕ
  tid : ℕ
  clientSocketFd : ℤ
  threadCount : ℤ
  thread : ℕ → ThreadPhase

inductive ServerEvent
  | quiet
  | closedSocket (n : ℕ)
  | took (n : ℕ)
  | passedOver (n : ℕ)
  | joinStarted (n : ℕ)
  | joined (n : ℕ)
  | removed (n : ℕ)
  | freed (n : ℕ)
  deriving DecidableEq, Repr

def serverInit : ServerState where
  pc := .accept
  head := []
  node := fun _ => ⟨0, 0⟩
  datap := 0
  nextNode := 1
  tid := 0
  clientSocketFd := -1
  threadCount := 0
  thread := fun _ => .notCreated

/-- One statement of main; `fd` is the descriptor `accept` returns, if that is the
statement. `pthread_join` keeps main where it is until the thread has ended. -/
def mainStep (s : ServerState) (fd : ℕ) : ServerState × ServerEvent :=
  match s.pc with
  | .accept => ({ s with clientSocketFd := fd, pc := .populate }, .quiet)
  | .populate =>
    ({ s with
       datap := s.nextNode
       nextNode := s.nextNode+1
       node := Function.update s.node s.nextNode ⟨0, s.clientSocketFd⟩
       pc := .createThread }, .quiet)
  | .createThread =>
    ({ s with
       tid := s.datap
       thread := Function.update s.thread s.datap .working
       pc := .recordTid }, .quiet)
  | .recordTid =>
    ({ s with
       node := Function.update s.node s.datap { s.node s.datap with tid := s.tid }
       pc := .countThread }, .quiet)
  | .countThread => ({ s with threadCount := s.threadCount+1, pc := .insertHead }, .quiet)
  | .insertHead => ({ s with head := s.datap :: s.head, pc := .loopTest }, .quiet)
  | .loopTest =>
    match s.head with
    | [] => ({ s with pc := .accept }, .quiet)
    | _ :: _ => ({ s with pc := .takeHead }, .quiet)
  | .takeHead =>
    match s.head with
    | [] => (s, .quiet)
    | n :: _ => ({ s with datap := n, pc := .testFd }, .took n)
  | .testFd =>
    -- there is no else branch: a node with a reset descriptor stays the head
    if (s.node s.datap).clientSocketFd ≥ 0 then ({ s with pc := .join }, .quiet)
    else ({ s with pc := .loopTest }, .passedOver s.datap)
  | .join => ({ s with pc := .joining }, .joinStarted (s.node s.datap).tid)
  | .joining =>
    if s.thread (s.node s.datap).tid = .ended then
      ({ s with
         thread := Function.update s.thread (s.node s.datap).tid .joined
         pc := .removeHead }, .joined (s.node s.datap).tid)
    else (s, .quiet)
  -- `SLIST_REMOVE_HEAD` takes whatever node is the head
  | .removeHead =>
    match s.head with
    | [] => (s, .quiet)
    | n :: rest => ({ s with head := rest, pc := .freeNode }, .removed n)
  | .freeNode => ({ s with pc := .decrement }, .freed s.datap)
  | .decrement => ({ s with threadCount := s.threadCount-1, pc := .loopTest }, .quiet)

/-- The last steps of `sendAndReceiveThread`: `close`, the store of -1 into its
node, and the return. -/
def threadStep (s : ServerState) (n : ℕ) : ServerState × ServerEvent :=
  match s.thread n with
  | .working => ({ s with thread := Function.update s.thread n .socketClosed }, .closedSocket n)
  | .socketClosed =>
    ({ s with
       node := Function.update s.node n { s.node n with clientSocketFd := -1 }
       thread := Function.update s.thread n .fdReset }, .quiet)
  | .fdReset => ({ s with thread := Function.update s.thread n .ended }, .quiet)
  | _ => (s, .quiet)

inductive ServerStep
  | main (fd : ℕ)
  | thread (n : ℕ)
  deriving DecidableEq, Repr

def server : Machine ServerState ServerStep ServerEvent where
  step s
    | .main fd => mainStep s fd
    | .thread n => threadStep s n

end ProvenAesd.Server
