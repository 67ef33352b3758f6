import ProvenAesd.AESDReadStream
import ProvenAesd.SocketScan

/-! A session of `sendAndReceiveThread` on the driver, from taking the mutex to
releasing it. What the callees decide (the socket, the allocator, the copies to
and from the kernel) is given with each call. -/
namespace ProvenAesd.Server
open BlockHeap Mealy Driver Driver.DriverState

/-- A chunk received, and what happens to it should it be written. -/
structure Recv where
  chunk : Chunk
  notCopied : ℕ
  alloc : AllocChoice
  stray : UInt8

inductive SessionPhase
  | receiving
  | replying
  | exited
  deriving DecidableEq, Repr

structure Session where
  dev : DriverState
  fpos : ℕ
  buf : List UInt8
  seekto : AesdSeekto
  isIoctl : Bool
  phase : SessionPhase

/-- `open` on a fresh handle; `buf` and `seekto` are not initialised. -/
def Session.start (dev : DriverState) (buf : List UInt8) (seekto : AesdSeekto) : Session where
  dev := dev
  fpos := 0
  buf := buf
  seekto := seekto
  isIoctl := false
  phase := .receiving

/-- `write(logFileFd, buf, rcvd)` -/
def recvCall (buf : List UInt8) (r : Recv) : WriteCall where
  buf := buf.take r.chunk.rcvd
  notCopied := min r.notCopied (buf.take r.chunk.rcvd).length
  alloc := r.alloc
  stray := r.stray
  count_lt := by
    have hle : (buf.take r.chunk.rcvd).length ≤ r.chunk.rcvd := List.length_take_le ..
    have hsize : r.chunk.rcvd ≤ 1024 := r.chunk.le_bufSize
    omega
  notCopied_le := min_le_right ..

def receive (s : Session) (r : Recv) : Session :=
  let buf := recvInto s.buf r.chunk
  let next : SessionPhase := if r.chunk.endsPacket then .replying else .receiving
  -- the action is decided on the whole buffer, not on the `rcvd` bytes of the chunk
  match chunkAction buf r.chunk.rcvd s.seekto with
  | .seek seekto =>
    let o := aesdIoctl s.dev s.fpos aesdcharIocseekto (some seekto)
    { s with
      fpos := o.fpos
      buf := buf
      seekto := seekto
      isIoctl := true
      phase := if o.retval < 0 then .exited else next }
  | .data _ =>
    let o := aesdWrite s.dev s.fpos (recvCall buf r)
    { s with
      dev := o.state
      fpos := o.fpos
      buf := buf
      phase := if o.retval = r.chunk.rcvd then next else .exited }

/-- The receive loop; a chunk that comes after its end is not received. The
output is the action taken. -/
def receiver : Machine Session Recv (Option ServerAction) where
  step s r :=
    match s.phase with
    | .receiving =>
      (receive s r, some (chunkAction (recvInto s.buf r.chunk) r.chunk.rcvd s.seekto))
    | _ => (s, none)

theorem receive_next (s : Session) (r : Recv) :
    (receive s r).buf = recvInto s.buf r.chunk ∧
    (receive s r).seekto =
      (chunkAction (recvInto s.buf r.chunk) r.chunk.rcvd s.seekto).seekto s.seekto ∧
    ((receive s r).phase = .exited ∨
      (receive s r).phase = if r.chunk.endsPacket then .replying else .receiving) := by
  cases haction : chunkAction (recvInto s.buf r.chunk) r.chunk.rcvd s.seekto with
  | seek seekto =>
    simp only [receive, haction]
    refine ⟨trivial, rfl, ?_⟩
    by_cases hret : (aesdIoctl s.dev s.fpos aesdcharIocseekto (some seekto)).retval < 0
    · exact Or.inl (if_pos hret)
    · exact Or.inr (if_neg hret)
  | data bytes =>
    simp only [receive, haction]
    refine ⟨trivial, rfl, ?_⟩
    by_cases hret : (aesdWrite s.dev s.fpos (recvCall (recvInto s.buf r.chunk) r)).retval =
        r.chunk.rcvd
    · exact Or.inr (if_pos hret)
    · exact Or.inl (if_neg hret)

/-- What a chunk of data leaves of the session. -/
structure Wrote (s : Session) (r : Recv) (t : Session) : Prop where
  dev_eq : t.dev = (aesdWrite s.dev s.fpos (recvCall (recvInto s.buf r.chunk) r)).state
  fpos_eq : t.fpos = (aesdWrite s.dev s.fpos (recvCall (recvInto s.buf r.chunk) r)).fpos
  isIoctl_eq : t.isIoctl = s.isIoctl
  phase_eq : t.phase =
    if (aesdWrite s.dev s.fpos (recvCall (recvInto s.buf r.chunk) r)).retval = r.chunk.rcvd then
      if r.chunk.endsPacket then .replying else .receiving
    else .exited

theorem receive_wrote {s : Session} {r : Recv}
    (h : strncmpEq (recvInto s.buf r.chunk) seekPrefix 19 = false) : Wrote s r (receive s r) := by
  constructor <;> simp only [receive, chunkAction, h, Bool.false_eq_true, if_false]

/-- What a chunk taken for a seek leaves of the session. -/
structure Sought (s : Session) (r : Recv) (seekto : AesdSeekto) (t : Session) : Prop where
  dev_eq : t.dev = s.dev
  fpos_eq : t.fpos =
    (aesdAdjustFileOffset s.dev s.fpos seekto.writeCmd.toNat seekto.writeCmdOffset.toNat).fpos
  phase_eq : t.phase =
    if (aesdAdjustFileOffset s.dev s.fpos seekto.writeCmd.toNat
      seekto.writeCmdOffset.toNat).retval < 0 then .exited
    else if r.chunk.endsPacket then .replying else .receiving

theorem receive_sought {s : Session} {r : Recv} {seekto : AesdSeekto}
    (h : chunkAction (recvInto s.buf r.chunk) r.chunk.rcvd s.seekto = .seek seekto) :
    Sought s r seekto (receive s r) := by
  have hioctl : aesdIoctl s.dev s.fpos aesdcharIocseekto (some seekto) =
      aesdAdjustFileOffset s.dev s.fpos seekto.writeCmd.toNat seekto.writeCmdOffset.toNat := by
    rw [aesdIoctl, if_pos rfl]
  constructor <;> simp only [receive, h, hioctl]

theorem receiver_idle {s : Session} (h : s.phase ≠ .receiving) (rs : List Recv) :
    receiver.final s rs = s ∧ (receiver.outputs s rs).reduceOption = [] := by
  have hstep (r : Recv) : receiver.step s r = (s, none) := by
    cases hp : s.phase with
    | receiving => exact absurd hp h
    | replying | exited => simp only [receiver, hp]
  induction rs with
  | nil => exact ⟨rfl, rfl⟩
  | cons r rs ih =>
    rw [Machine.final_cons, Machine.outputs_cons, hstep]
    exact ih

/-- What the callees of the reply loop decide in its `i`-th turn: whether the copy
to user space faults, and what `send` returns for the data, if it does not fail. -/
structure ReplyEnv where
  copyFault : ℕ → Bool
  send : ℕ → List UInt8 → Option ℕ

structure SessionEnd where
  exited : Bool
  sent : List UInt8
  dev : DriverState

/-- `while ((readLen = read(logFileFd, readBuf, 1024)) > 0)`; `none` when `fuel`
turns did not end it. -/
def replyLoop (env : ReplyEnv) : (fuel i : ℕ) → DriverState → ℕ → Option SessionEnd
  | 0, _, _, _ => none
  | fuel+1, i, dev, fpos =>
    let o := aesdRead dev fpos ⟨bufSize, env.copyFault i⟩
    if o.retval > 0 then
      match env.send i o.data with
      | none => some ⟨true, [], o.state⟩
      | some n =>
        (replyLoop env fuel (i+1) o.state o.fpos).map fun e =>
          { e with sent := o.data.take n ++ e.sent }
    else some ⟨false, [], o.state⟩

/-- A client, with what the stack of its session thread happens to hold. -/
structure Client where
  buf : List UInt8
  seekto : AesdSeekto
  recvs : List Recv
  env : ReplyEnv

namespace Client

def stream (c : Client) : List UInt8 := (c.recvs.map fun r => r.chunk.bytes).flatten

def received (c : Client) (dev : DriverState) : Session :=
  receiver.final (Session.start dev c.buf c.seekto) c.recvs

end Client

/-- Every turn of the reply loop but the last reads at least one stored byte. -/
def replyFuel (dev : DriverState) : ℕ := dev.liveBytes.flatten.length+1

/-- The exchange of `sendAndReceiveThread`, which reads from the start unless it did a seek. -/
def sendAndReceive (kernel : FixedSizeLlseek) (dev : DriverState) (c : Client) : Option SessionEnd :=
  let s := c.received dev
  match s.phase with
  | .exited => some ⟨true, [], s.dev⟩
  -- the end of the stream ends the loop as the end of a packet does
  | _ =>
    let fpos := if s.isIoctl then s.fpos else (aesdLlseek kernel s.dev s.fpos 0 .seekSet).fpos
    replyLoop c.env (replyFuel s.dev) 0 s.dev fpos

end ProvenAesd.Server
