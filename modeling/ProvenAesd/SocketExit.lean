import ProvenAesd.AESDSeekRange
import ProvenAesd.SocketOutcome

/-! `checkerr` ends the whole server. When every call but the seek ioctl succeeds,
it is the driver's answer to the seeks that decides whether it is reached. -/
namespace ProvenAesd.Server
open BlockHeap BoundedQueue Mealy Driver Driver.DriverState

/-- The calls that main, and a session thread around its exchange with the client,
put under `checkerr`. -/
inductive CheckedCall
  | fork
  | sigaction
  | getaddrinfo
  | socket
  | setsockopt
  | bind
  | listen
  | pthreadMutexInit
  | accept
  | getnameinfo
  | pthreadCreate
  | pthreadJoin
  | pthreadMutexLock
  | openLogFile
  | pthreadMutexUnlock
  deriving DecidableEq, Repr

/-- The condition `checkerr` is given for the result of the call. -/
def CheckedCall.errcond : CheckedCall → ℤ → Bool
  | .fork, rc | .sigaction, rc => rc == -1
  | .socket, rc | .accept, rc | .openLogFile, rc => rc < 0
  | _, rc => rc != 0

def CheckedCall.Succeeds : CheckedCall → ℤ → Prop
  | .fork, rc | .socket, rc | .accept, rc | .openLogFile, rc => 0 ≤ rc
  | _, rc => rc = 0

theorem errcond_of_succeeds {call : CheckedCall} {rc : ℤ} (h : call.Succeeds rc) :
    call.errcond rc = false := by
  cases call with
  | fork =>
    have hnonneg : 0 ≤ rc := h
    apply beq_eq_false_iff_ne.mpr
    omega
  | socket | accept | openLogFile => exact decide_eq_false (not_lt.mpr h)
  | _ =>
    obtain rfl : rc = 0 := h
    rfl

/-- A session thread, with the results of the calls around the exchange. -/
structure SessionThread where
  client : Client
  lockRc : ℤ
  logFileFd : ℤ
  unlockRc : ℤ

/-- How a step ends. A reply that does not end keeps the mutex; a step of a process
that is not there any more does not happen. -/
inductive ProcessEvent
  | ran
  | exitFailure
  | hung
  | gone
  deriving DecidableEq, Repr

/-- `sendAndReceiveThread`, whose exchange nobody else interrupts. -/
def sendAndReceiveThread (kernel : FixedSizeLlseek) (dev : DriverState) (t : SessionThread) :
    DriverState × ProcessEvent :=
  if CheckedCall.errcond .pthreadMutexLock t.lockRc then (dev, .exitFailure)
  else if CheckedCall.errcond .openLogFile t.logFileFd then (dev, .exitFailure)
  else
    match sendAndReceive kernel dev t.client with
    | none => (dev, .hung)
    | some e =>
      if e.exited then (e.dev, .exitFailure)
      else if CheckedCall.errcond .pthreadMutexUnlock t.unlockRc then (e.dev, .exitFailure)
      else (e.dev, .ran)

/-- The server process and the device, which outlives it. -/
structure Process where
  dev : DriverState
  exited : Bool

/-- Main makes one of its calls, or the session that has got the mutex runs. -/
inductive ProcessStep
  | main (call : CheckedCall) (rc : ℤ)
  | session (t : SessionThread)

def processStep (kernel : FixedSizeLlseek) (p : Process) (step : ProcessStep) :
    Process × ProcessEvent :=
  if p.exited then (p, .gone)
  else
    match step with
    | .main call rc =>
      if call.errcond rc then ({ p with exited := true }, .exitFailure) else (p, .ran)
    | .session t =>
      let (dev, event) := sendAndReceiveThread kernel p.dev t
      (⟨dev, event == .exitFailure⟩, event)

def process (kernel : FixedSizeLlseek) : Machine Process ProcessStep ProcessEvent :=
  ⟨processStep kernel⟩

/-- Every call of the thread succeeds, with the seek ioctl left out of it. -/
structure SessionCalls (dev : DriverState) (t : SessionThread) : Prop where
  lock : CheckedCall.Succeeds .pthreadMutexLock t.lockRc
  opened : CheckedCall.Succeeds .openLogFile t.logFileFd
  unlock : CheckedCall.Succeeds .pthreadMutexUnlock t.unlockRc
  writes : receiver.Guarded RecvCalm (Session.start dev t.client.buf t.client.seekto)
    t.client.recvs
  sends : t.client.env.Sends

def CallsSucceed (p : Process) : ProcessStep → Prop
  | .main call rc => call.Succeeds rc
  | .session t => p.exited = false → SessionCalls p.dev t

/-- If the chunk is taken for a seek, it is one that the driver takes. -/
def SeekAnswered (s : Session) (r : Recv) : Prop :=
  s.phase = .receiving → ∀ seekto,
    chunkAction (recvInto s.buf r.chunk) r.chunk.rcvd s.seekto = .seek seekto →
      SeekTaken s.dev seekto.writeCmd.toNat seekto.writeCmdOffset.toNat

def SeeksAnswered (p : Process) : ProcessStep → Prop
  | .main _ _ => True
  | .session t => p.exited = false →
    receiver.Guarded SeekAnswered (Session.start p.dev t.client.buf t.client.seekto) t.client.recvs

section Receive

variable {s : Session} {r : Recv}

/-- A position that a read can start from, also after the bytes still to be written
to the line. -/
structure InReach (s : Session) : Prop where
  fpos_lt : s.fpos+1 < 2^64
  near : s.phase = .receiving → ∃ p < 2^63, s.fpos ≤ p+s.dev.working.size

theorem receive_fpos (hwf : DeviceWf s.dev) (hok : RecvOk s r) :
    (receive s r).fpos = sizeT (s.fpos+r.chunk.rcvd) := by
  have hacc := write_accepted hwf hok.krealloc_ok (recvCall_something s.dev s.buf r) s.fpos
  rw [(receive_wrote hok.not_seek).fpos_eq, hacc.fpos_eq, (recvCall_data s.buf hok.all_copied).1]

/-- A chunk of data leaves the position behind the line it adds to. -/
theorem InReach.data (h : InReach s) (hphase : s.phase = .receiving) (hwf : DeviceWf s.dev)
    (hok : RecvOk s r) : InReach (receive s r) := by
  have hr := receive_data hwf hok
  have hphase' := hr.phase_eq
  obtain ⟨p, hp, hle⟩ := h.near hphase
  have hfpos := receive_fpos hwf hok
  cases hend : r.chunk.endsPacket with
  | true =>
    -- the line is among the stored ones now
    obtain ⟨line, hlive, hlength, -⟩ := receive_end hwf hok hend
    have hmem : line ∈ (receive s r).dev.liveBytes := by
      rw [hlive]
      exact List.mem_of_getLast? (push_getLast 10 _ line)
    have hfits := (List.sublist_flatten_of_mem hmem).length_le
    have htotal := hr.wf.total_lt
    have hrcvd : r.chunk.rcvd = r.chunk.bytes.length := rfl
    rw [sizeT_of_lt (by omega)] at hfpos
    constructor
    · omega
    · intro hrec
      rw [hphase', hend] at hrec
      cases hrec
  | false =>
    obtain ⟨-, hsize⟩ := receive_open hwf hok hend
    have hlt := hr.wf.working_lt
    have hrcvd : r.chunk.rcvd = r.chunk.bytes.length := rfl
    rw [sizeT_of_lt (by omega)] at hfpos
    constructor
    · omega
    · intro _
      exact ⟨p, hp, by omega⟩

/-- What a turn of the receive loop leaves, and when it ends in `exit`. -/
structure Turned (s : Session) (r : Recv) (t : Session) : Prop where
  wf : DeviceWf t.dev
  inReach : InReach t
  exited_iff : t.phase = .exited ↔ ¬SeekAnswered s r

theorem turned_of_data (hphase : s.phase = .receiving) (hwf : DeviceWf s.dev) (h : InReach s)
    (hok : RecvOk s r) : Turned s r (receive s r) := by
  have hr := receive_data hwf hok
  refine ⟨hr.wf, h.data hphase hwf hok, iff_of_false ?_ ?_⟩
  · rw [hr.phase_eq]
    split <;> decide
  · intro hnot
    apply hnot
    intro _ seekto haction
    rw [hok.action] at haction
    cases haction

theorem turned_of_seek (hphase : s.phase = .receiving) (hwf : DeviceWf s.dev) (h : InReach s)
    {seekto : AesdSeekto}
    (haction : chunkAction (recvInto s.buf r.chunk) r.chunk.rcvd s.seekto = .seek seekto) :
    Turned s r (receive s r) := by
  obtain ⟨hdev, hfpos, hnext⟩ := receive_sought haction
  have hwf' : DeviceWf (receive s r).dev := hdev ▸ hwf
  have hoff := seekto.writeCmdOffset.toNat_lt
  have hanswered : SeekAnswered s r ↔
      SeekTaken s.dev seekto.writeCmd.toNat seekto.writeCmdOffset.toNat := by
    constructor
    · intro hans
      exact hans hphase seekto haction
    · intro htaken _ seekto' haction'
      rw [haction, ServerAction.seek.injEq] at haction'
      exact haction' ▸ htaken
  by_cases htaken : SeekTaken s.dev seekto.writeCmd.toNat seekto.writeCmdOffset.toNat
  · -- the position is among the stored bytes, whatever it was before
    have hlt := adjust_fpos_lt hwf hoff s.fpos htaken
    rw [adjust_taken hwf hoff s.fpos htaken, if_neg (by decide)] at hnext
    rw [← hfpos] at hlt
    refine ⟨hwf', ⟨by omega, fun _ => ⟨_, hlt, Nat.le_add_right _ _⟩⟩, ?_⟩
    rw [hanswered, hnext]
    apply iff_of_false
    · split <;> decide
    · exact not_not.mpr htaken
  · -- `-EINVAL`, which `checkerr` turns into the end of the process
    obtain ⟨hret, hkept⟩ := adjust_refused hwf hoff s.fpos htaken
    rw [hret, if_pos (by decide)] at hnext
    rw [hkept] at hfpos
    refine ⟨hwf', ⟨hfpos ▸ h.fpos_lt, ?_⟩, ?_⟩
    · intro hrec
      rw [hnext] at hrec
      cases hrec
    · rw [hanswered, hnext]
      exact iff_of_true rfl htaken

theorem receive_turned (hphase : s.phase = .receiving) (hwf : DeviceWf s.dev) (h : InReach s)
    (hcalm : RecvCalm s r) : Turned s r (receive s r) := by
  cases hseek : strncmpEq (recvInto s.buf r.chunk) seekPrefix 19 with
  | false =>
    obtain ⟨hcopied, hkrealloc⟩ := hcalm hphase hseek
    exact turned_of_data hphase hwf h ⟨hseek, hcopied, hkrealloc⟩
  | true =>
    have hprefix : seekPrefix <+: recvInto s.buf r.chunk := (seekTest_iff _).mp hseek
    exact turned_of_seek hphase hwf h (chunkAction_of_seek hprefix _ _)

end Receive

/-- The receive loop ends in `exit` when one of its seeks is refused, and in no
other way. The induction is on the chunks still to come. -/
theorem receiver_exits_iff {rs : List Recv} :
    ∀ s : Session, s.phase = .receiving → DeviceWf s.dev → InReach s →
      receiver.Guarded RecvCalm s rs →
      DeviceWf (receiver.final s rs).dev ∧ (receiver.final s rs).fpos+1 < 2^64 ∧
        ((receiver.final s rs).phase = .exited ↔ ¬receiver.Guarded SeekAnswered s rs) := by
  induction rs with
  | nil =>
    intro s hphase hwf hreach _
    refine ⟨hwf, hreach.fpos_lt, ?_⟩
    rw [Machine.final_nil, hphase]
    exact iff_of_false (by decide) (not_not.mpr trivial)
  | cons r rs ih =>
    intro s hphase hwf hreach hcalm
    have ht := receive_turned hphase hwf hreach (hcalm.1 : RecvCalm s r)
    have hcalm' : receiver.Guarded RecvCalm (receive s r) rs := receiver_step hphase r ▸ hcalm.2
    rw [Machine.final_cons, Machine.guarded_cons, receiver_step hphase]
    -- a loop that goes on has had its seek answered
    by_cases hrec : (receive s r).phase = .receiving
    · have hans : SeekAnswered s r := by
        by_contra hnot
        rw [ht.exited_iff.mpr hnot] at hrec
        cases hrec
      rw [and_iff_right hans]
      exact ih (receive s r) hrec ht.wf ht.inReach hcalm'
    · -- the loop has ended, one way or the other
      have hrest : receiver.Guarded SeekAnswered (receive s r) rs :=
        guarded_of_idle (fun _ _ hs hp => absurd hp hs) hrec rs
      rw [(receiver_idle hrec rs).1, and_iff_left hrest]
      exact ⟨ht.wf, ht.inReach.fpos_lt, ht.exited_iff⟩

/-- Every session ends, and it ends the process when a seek of it is refused. -/
theorem sendAndReceive_exits_iff (kernel : FixedSizeLlseek) {dev : DriverState} (hwf : DeviceWf dev)
    {c : Client} (hsends : c.env.Sends)
    (hcalm : receiver.Guarded RecvCalm (Session.start dev c.buf c.seekto) c.recvs) :
    ∃ e, sendAndReceive kernel dev c = some e ∧ DeviceWf e.dev ∧
      (e.exited = true ↔
        ¬receiver.Guarded SeekAnswered (Session.start dev c.buf c.seekto) c.recvs) := by
  have hstart : InReach (Session.start dev c.buf c.seekto) := by
    constructor
    · exact (by decide : 0+1 < 2^64)
    · intro _
      exact ⟨0, by decide, Nat.zero_le _⟩
  obtain ⟨hwf', hfpos, hexited⟩ := receiver_exits_iff _ rfl hwf hstart hcalm
  change DeviceWf (c.received dev).dev at hwf'
  change (c.received dev).fpos+1 < 2^64 at hfpos
  change (c.received dev).phase = .exited ↔ _ at hexited
  rw [← hexited]
  cases hphase : (c.received dev).phase with
  | exited =>
    refine ⟨⟨true, [], (c.received dev).dev⟩, ?_, hwf', iff_of_true rfl rfl⟩
    simp only [sendAndReceive, hphase]
  | receiving | replying =>
    have hstarts : (if (c.received dev).isIoctl then (c.received dev).fpos
        else (aesdLlseek kernel (c.received dev).dev (c.received dev).fpos 0 .seekSet).fpos)+1 <
          2^64 := by
      split
      · exact hfpos
      · rw [llseek_rewind]
        decide
    obtain ⟨sent, dev', hloop, hwf'', -⟩ := replyLoop_ends hsends (replyFuel (c.received dev).dev) 0
      (c.received dev).dev _ hwf' hstarts (by unfold replyFuel; omega)
    refine ⟨⟨false, sent, dev'⟩, ?_, hwf'', iff_of_false Bool.false_ne_true (by decide)⟩
    simp only [sendAndReceive, hphase]
    exact hloop

structure Stepped (kernel : FixedSizeLlseek) (p : Process) (step : ProcessStep) : Prop where
  wf : DeviceWf ((process kernel).step p step).1.dev
  ended : ((process kernel).step p step).2 ≠ .hung
  up_iff : SeeksAnswered p step ↔ ((process kernel).step p step).2 ≠ .exitFailure

theorem Stepped.of_eq {kernel : FixedSizeLlseek} {p q : Process} {step : ProcessStep}
    {event : ProcessEvent} (hstep : (process kernel).step p step = (q, event)) (hwf : DeviceWf q.dev)
    (hended : event ≠ .hung) (hup : SeeksAnswered p step ↔ event ≠ .exitFailure) :
    Stepped kernel p step := by
  constructor
  · rw [hstep]
    exact hwf
  · rw [hstep]
    exact hended
  · rw [hstep]
    exact hup

theorem process_step (kernel : FixedSizeLlseek) {p : Process} (hwf : DeviceWf p.dev)
    {step : ProcessStep} (h : CallsSucceed p step) : Stepped kernel p step := by
  cases hup : p.exited with
  | true =>
    have hstep : (process kernel).step p step = (p, .gone) := by
      simp only [process, processStep, hup, if_true]
    apply Stepped.of_eq hstep hwf (by decide)
    apply iff_of_true _ (by decide)
    cases step with
    | main call rc => trivial
    | session t =>
      intro hdown
      rw [hup] at hdown
      cases hdown
  | false =>
    cases step with
    | main call rc =>
      have hstep : (process kernel).step p (.main call rc) = (p, .ran) := by
        simp only [process, processStep, hup, errcond_of_succeeds h, Bool.false_eq_true, if_false]
      exact Stepped.of_eq hstep hwf (by decide) (iff_of_true trivial (by decide))
    -- of what a session puts under `checkerr` only the seek can fail here
    | session t =>
      have hcalls : SessionCalls p.dev t := h hup
      obtain ⟨e, hserve, hwf', hexits⟩ :=
        sendAndReceive_exits_iff kernel hwf hcalls.sends hcalls.writes
      have hanswered : SeeksAnswered p (.session t) ↔ e.exited = false := by
        rw [← Bool.not_eq_true, hexits, not_not]
        exact ⟨fun hg => hg hup, fun hg _ => hg⟩
      have hstep : (process kernel).step p (.session t) =
          (⟨e.dev, e.exited⟩, if e.exited then .exitFailure else .ran) := by
        simp only [process, processStep, sendAndReceiveThread, hup, hserve,
          errcond_of_succeeds hcalls.lock, errcond_of_succeeds hcalls.opened,
          errcond_of_succeeds hcalls.unlock, Bool.false_eq_true, if_false]
        cases e.exited <;> rfl
      apply Stepped.of_eq hstep hwf'
      · split <;> decide
      · rw [hanswered]
        cases e.exited <;> decide

/-- No step of any run hangs in a reply that does not end. -/
theorem process_ends (kernel : FixedSizeLlseek) {p : Process} (hwf : DeviceWf p.dev)
    {steps : List ProcessStep} (h : (process kernel).Guarded CallsSucceed p steps) :
    ∀ event ∈ (process kernel).outputs p steps, event ≠ .hung := by
  have hiff : (process kernel).Guarded (fun _ _ => True) p steps ↔
      ∀ event ∈ (process kernel).outputs p steps, event ≠ .hung := by
    apply h.iff_outputs fun p => DeviceWf p.dev
    · intro p step hwf hcalls
      exact (process_step kernel hwf hcalls).wf
    · intro p step hwf hcalls
      exact iff_of_true trivial (process_step kernel hwf hcalls).ended
    · exact hwf
  exact hiff.mp ((process kernel).guarded_true p steps)

/-- As long as every other call succeeds, the server exits when, and only when, a
client sends a seek that the driver does not take, and no session of it hangs. -/
theorem server_stays_up_iff (kernel : FixedSizeLlseek) {dev : DriverState} (hs : Reachable dev)
    (steps : List ProcessStep) (h : (process kernel).Guarded CallsSucceed ⟨dev, false⟩ steps) :
    ((∀ event ∈ (process kernel).outputs ⟨dev, false⟩ steps, event ≠ .exitFailure) ↔
      (process kernel).Guarded SeeksAnswered ⟨dev, false⟩ steps) ∧
    ∀ event ∈ (process kernel).outputs ⟨dev, false⟩ steps, event ≠ .hung := by
  constructor
  · symm
    apply h.iff_outputs fun p => DeviceWf p.dev
    · intro p step hwf hcalls
      exact (process_step kernel hwf hcalls).wf
    · intro p step hwf hcalls
      exact (process_step kernel hwf hcalls).up_iff
    · exact hs.wf
  · exact process_ends kernel hs.wf h

/-- A thread whose own calls succeed, for a client that sends this in one chunk. -/
def threadOf (bytes : List UInt8) (hne : bytes ≠ []) (hle : bytes.length ≤ bufSize) :
    SessionThread where
  client := plainClient [plainRecv bytes hne hle]
  lockRc := 0
  logFileFd := 3
  unlockRc := 0

theorem sessionCalls_threadOf {dev : DriverState} {bytes : List UInt8} (hne : bytes ≠ [])
    (hle : bytes.length ≤ bufSize)
    (hcalm : RecvCalm (Session.start dev [] ⟨0, 0⟩) (plainRecv bytes hne hle)) :
    SessionCalls dev (threadOf bytes hne hle) := by
  refine ⟨rfl, (by decide : (0 : ℤ) ≤ 3), rfl, ⟨hcalm, trivial⟩, ?_⟩
  intro i data
  exact Option.some_ne_none _

/-- "!" and a newline -/
def lineThread : SessionThread := threadOf [33, 10] (by decide) (by decide)

theorem lineThread_calls : SessionCalls aesdInitModule lineThread := by
  apply sessionCalls_threadOf
  intro _ _
  exact ⟨rfl, by decide +kernel⟩

/-- "AESDCHAR_IOCSEEKTO:0,0" and a newline -/
def seekThread : SessionThread :=
  threadOf (seekPrefix ++ [48, 44, 48, 10]) (by decide) (by decide)

theorem seekThread_calls (dev : DriverState) : SessionCalls dev seekThread := by
  apply sessionCalls_threadOf
  intro _ hnot
  have hseek : strncmpEq (recvInto [] seekThread.client.recvs[0].chunk) seekPrefix 19 = true := by
    decide +kernel
  exact absurd (hseek.symm.trans hnot) (by decide)

/-- A line, and a seek to it. -/
theorem server_stays_up_iff_line_and_seek :
    let steps : List ProcessStep :=
      [.main .accept 4, .session lineThread, .main .accept 4, .session seekThread]
    ((∀ event ∈ (process boundedLlseek).outputs ⟨aesdInitModule, false⟩ steps, event ≠ .exitFailure) ↔
      (process boundedLlseek).Guarded SeeksAnswered ⟨aesdInitModule, false⟩ steps) ∧
    (process boundedLlseek).outputs ⟨aesdInitModule, false⟩ steps = [.ran, .ran, .ran, .ran] := by
  intro steps
  have hdev : Reachable aesdInitModule := ⟨[], rfl⟩
  have hcalls : (process boundedLlseek).Guarded CallsSucceed ⟨aesdInitModule, false⟩ steps :=
    ⟨(by decide : (0 : ℤ) ≤ 4), fun _ => lineThread_calls, (by decide : (0 : ℤ) ≤ 4),
      fun _ => seekThread_calls _, trivial⟩
  exact ⟨(server_stays_up_iff boundedLlseek hdev steps hcalls).1, by decide +kernel⟩

/-- The first client sends a seek to an empty device, and the second is not served. -/
theorem rejected_seek_exits :
    let steps : List ProcessStep := [.main .accept 4, .session seekThread, .session lineThread]
    let events := (process boundedLlseek).outputs ⟨aesdInitModule, false⟩ steps
    Reachable aesdInitModule ∧
      (process boundedLlseek).Guarded CallsSucceed ⟨aesdInitModule, false⟩ steps ∧
      events = [.ran, .exitFailure, .gone] ∧ ¬∀ event ∈ events, event ≠ .exitFailure := by
  intro steps events
  have hevents : events = [.ran, .exitFailure, .gone] := by decide +kernel
  have hdown : ((process boundedLlseek).step ⟨aesdInitModule, false⟩ (.session seekThread)).1.exited =
      true := by
    decide +kernel
  refine ⟨⟨[], rfl⟩, ⟨(by decide : (0 : ℤ) ≤ 4), fun _ => seekThread_calls _, ?_, trivial⟩,
    hevents, ?_⟩
  · intro hup
    exact absurd (hdown.symm.trans hup) (by decide)
  · rw [hevents]
    decide

end ProvenAesd.Server
