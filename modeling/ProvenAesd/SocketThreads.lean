import ProvenAesd.LockedSections
import ProvenAesd.SocketExit

/-! `sendAndReceiveThread` on the device, statement by statement, any number of threads
under one `g_mutex`. What a thread has met so far makes up the client that `sendAndReceive`
serves at once. -/
namespace ProvenAesd.Server
open LockedSections Mealy Driver Driver.DriverState

inductive SendResult
  | failed
  | whole
  | short (n : ℕ)
  deriving DecidableEq, Repr

def SendResult.taken (data : List UInt8) : SendResult → ℕ
  | failed => 0
  | whole => data.length
  | short n => n

/-- What the callees of a statement answer; each looks at its own part. -/
structure DeviceAnswer where
  opened : Bool
  /-- A chunk, or the end of the stream or an error. -/
  recv : Option Recv
  copyFault : Bool
  send : SendResult

inductive DevicePc
  | lockMutex
  | openLogFile
  | recv
  | handle (r : Recv)
  | rewind
  | read
  | send (data : List UInt8)
  | closeLogFile
  | unlockMutex
  | shutdown
  | ended
  | exited

structure DeviceThread where
  pc : DevicePc
  /-- What the stack holds when the thread comes to its variables. -/
  stackBuf : List UInt8
  stackSeekto : AesdSeekto
  fpos : ℕ
  buf : List UInt8
  seekto : AesdSeekto
  isIoctl : Bool
  /-- What it has met: the chunks, and the answers in the reply loop. -/
  recvs : List Recv
  faults : List Bool
  sends : List SendResult
  sent : List UInt8

namespace DeviceThread

def session (x : DeviceThread) (dev : DriverState) (phase : SessionPhase) : Session where
  dev := dev
  fpos := x.fpos
  buf := x.buf
  seekto := x.seekto
  isIoctl := x.isIoctl
  phase := phase

def own (x : DeviceThread) (a : DeviceAnswer) : DeviceThread :=
  match x.pc with
  | .openLogFile => if a.opened then { x with pc := .recv, fpos := 0 } else { x with pc := .exited }
  | .recv =>
    match a.recv with
    | none => { x with pc := .rewind }
    | some r => { x with pc := .handle r, recvs := x.recvs ++ [r] }
  | .send data =>
    if a.send = .failed then { x with pc := .exited }
    else
      { x with
        pc := .read
        sends := x.sends ++ [a.send]
        sent := x.sent ++ data.take (a.send.taken data) }
  | .closeLogFile => { x with pc := .unlockMutex }
  | .shutdown => { x with pc := .ended }
  | _ => x

def afterTurn : SessionPhase → DevicePc
  | .receiving => .recv
  | .replying => .rewind
  | .exited => .exited

def handleChunk (dev : DriverState) (x : DeviceThread) (r : Recv) : DriverState × DeviceThread :=
  let s := receive (x.session dev .receiving) r
  (s.dev,
    { x with
      pc := afterTurn s.phase
      fpos := s.fpos
      buf := s.buf
      seekto := s.seekto
      isIoctl := s.isIoctl })

def readLog (dev : DriverState) (x : DeviceThread) (copyFault : Bool) : DriverState × DeviceThread :=
  let o := aesdRead dev x.fpos ⟨bufSize, copyFault⟩
  (o.state,
    { x with
      pc := if o.retval > 0 then .send o.data else .closeLogFile
      fpos := o.fpos
      faults := x.faults ++ [copyFault] })

/-- `if (!isIoctl) lseek(logFileFd, 0, SEEK_SET)` -/
def rewindTo (kernel : FixedSizeLlseek) (s : Session) : ℕ :=
  if s.isIoctl then s.fpos else (aesdLlseek kernel s.dev s.fpos 0 .seekSet).fpos

def shared (kernel : FixedSizeLlseek) (dev : DriverState) (x : DeviceThread) (a : DeviceAnswer) :
    DriverState × DeviceThread :=
  match x.pc with
  | .handle r => handleChunk dev x r
  | .rewind => (dev, { x with pc := .read, fpos := rewindTo kernel (x.session dev .replying) })
  | .read => readLog dev x a.copyFault
  | _ => (dev, x)

def kind (x : DeviceThread) : Kind :=
  match x.pc with
  | .lockMutex => .lock
  | .handle _ | .rewind | .read => .shared
  | .unlockMutex => .unlock
  | .openLogFile | .recv | .send _ | .closeLogFile | .shutdown | .ended | .exited => .own

def inside (x : DeviceThread) : Bool :=
  match x.pc with
  | .lockMutex | .shutdown | .ended => false
  | _ => true

def exited (x : DeviceThread) : Bool :=
  match x.pc with
  | .exited => true
  | _ => false

/-- The variables of the session are declared behind the lock. -/
def locked (x : DeviceThread) : DeviceThread where
  pc := .openLogFile
  stackBuf := x.stackBuf
  stackSeekto := x.stackSeekto
  fpos := 0
  buf := x.stackBuf
  seekto := x.stackSeekto
  isIoctl := false
  recvs := []
  faults := []
  sends := []
  sent := []

def sendAndReceiveThread (kernel : FixedSizeLlseek) :
    Program DriverState DeviceThread DeviceAnswer where
  kind := kind
  own := own
  shared := shared kernel
  locked := locked
  unlocked x := { x with pc := .shutdown }
  exits := exited

/-- The callees of the reply loop, as far as the thread has met them. -/
def env (x : DeviceThread) : ReplyEnv where
  copyFault i := x.faults.getD i false
  send i data := some ((x.sends.getD i .whole).taken data)

/-- The client of the thread, with what the thread has met so far. -/
def client (x : DeviceThread) : Client where
  buf := x.stackBuf
  seekto := x.stackSeekto
  recvs := x.recvs
  env := x.env

end DeviceThread

section Calm

variable {s : Session} {r : Recv}

/-- A turn that does not end in `exit` has written its chunk, or was a seek. -/
theorem recvCalm_of_goes_on (h : (receive s r).phase ≠ .exited) : RecvCalm s r := by
  intro _ hseek
  have hphase := (receive_wrote hseek).phase_eq
  have hret : (aesdWrite s.dev s.fpos (recvCall (recvInto s.buf r.chunk) r)).retval = r.chunk.rcvd := by
    by_contra hne
    rw [if_neg hne] at hphase
    exact h hphase
  have hkrealloc : KreallocOk s.dev (recvCall (recvInto s.buf r.chunk) r) := by
    by_contra hnot
    rw [write_retval_of_refused hnot] at hret
    have hneg : (-ENOMEM : ℤ) < 0 := by decide
    omega
  rw [write_retval_of_ok hkrealloc, Nat.cast_inj, WriteCall.copied, recvCall_count] at hret
  have hlen : ((recvInto s.buf r.chunk).take r.chunk.rcvd).length = r.chunk.rcvd :=
    recvCall_count s.buf r
  have hnone : (recvCall (recvInto s.buf r.chunk) r).notCopied = min r.notCopied r.chunk.rcvd := by
    rw [← hlen]
    rfl
  have hpos := r.chunk.rcvd_pos
  exact ⟨by omega, hkrealloc⟩

/-- The same for all turns of a receive loop that does not end in `exit`. -/
theorem receiver_calm {rs : List Recv} :
    ∀ s : Session, (receiver.final s rs).phase ≠ .exited → receiver.Guarded RecvCalm s rs := by
  induction rs with
  | nil => exact fun _ _ => trivial
  | cons r rs ih =>
    intro s h
    by_cases hrec : s.phase = .receiving
    · rw [Machine.final_cons, receiver_step hrec] at h
      rw [Machine.guarded_cons, receiver_step hrec]
      refine ⟨recvCalm_of_goes_on fun hexited => ?_, ih _ h⟩
      have hne : (receive s r).phase ≠ .receiving := by rw [hexited]; decide
      rw [(receiver_idle hne rs).1] at h
      exact h hexited
    · exact guarded_of_idle (fun _ _ hs hp => absurd hp hs) hrec (r :: rs)

end Calm

section ReplyFuel

/-- More fuel makes no difference to a loop that has ended. -/
theorem replyLoop_more_fuel {env : ReplyEnv} {fuel : ℕ} :
    ∀ {i dev fpos e}, replyLoop env fuel i dev fpos = some e →
      ∀ more, replyLoop env (fuel+more) i dev fpos = some e := by
  induction fuel with
  | zero =>
    intro i dev fpos e h
    cases h
  | succ fuel ih =>
    intro i dev fpos e h more
    rw [Nat.succ_add]
    simp only [replyLoop] at h ⊢
    split
    · rename_i hret
      rw [if_pos hret] at h
      split
      · rename_i hsend
        rw [hsend] at h
        exact h
      · rename_i n hsend
        rw [hsend] at h
        obtain ⟨e', he', rfl⟩ := Option.map_eq_some_iff.mp h
        rw [ih he' more]
        rfl
    · rename_i hret
      rw [if_neg hret] at h
      exact h

theorem replyLoop_unique {env : ReplyEnv} {fuel fuel' i fpos : ℕ} {dev : DriverState}
    {e e' : SessionEnd} (h : replyLoop env fuel i dev fpos = some e)
    (h' : replyLoop env fuel' i dev fpos = some e') : e = e' := by
  have hleft := replyLoop_more_fuel h fuel'
  have hright := replyLoop_more_fuel h' fuel
  rw [Nat.add_comm, hright] at hleft
  exact (Option.some.inj hleft).symm

end ReplyFuel

end ProvenAesd.Server
