import ProvenAesd.SocketThreads

/-! Session threads in any interleaving have the effect of `sendAndReceive` on one client after
the other, in the order in which they took the mutex. -/
namespace ProvenAesd.Server
open LockedSections Mealy Driver Driver.DriverState

/-- The reply loop will meet what the thread has met. -/
structure ReplyEnv.Meets (env : ReplyEnv) (faults : List Bool) (sends : List SendResult) : Prop where
  copyFault : ∀ i fault, faults[i]? = some fault → env.copyFault i = fault
  send : ∀ i r data, sends[i]? = some r → env.send i data = some (r.taken data)

theorem ReplyEnv.Meets.before {env : ReplyEnv} {faults : List Bool} {sends : List SendResult}
    (faults' : List Bool) (sends' : List SendResult)
    (h : env.Meets (faults ++ faults') (sends ++ sends')) :
    env.Meets faults sends := by
  constructor
  · intro i fault hi
    exact h.copyFault i fault (by rw [List.getElem?_append_left (List.getElem?_eq_some_iff.mp hi).1, hi])
  · intro i r data hi
    exact h.send i r data (by rw [List.getElem?_append_left (List.getElem?_eq_some_iff.mp hi).1, hi])

theorem DeviceThread.env_meets (x : DeviceThread) : x.env.Meets x.faults x.sends := by
  constructor
  · intro i fault hi
    simp [DeviceThread.env, hi]
  · intro i r data hi
    simp [DeviceThread.env, hi]

section Thread

variable {kernel : FixedSizeLlseek} {dev dev' : DriverState} {x : DeviceThread}

namespace DeviceThread

def received (x : DeviceThread) (dev : DriverState) : Session := x.client.received dev

/-- A loop that has got this far from where the thread began to reply ends like the
rest of it, with what was sent before. -/
def Replied (kernel : FixedSizeLlseek) (x : DeviceThread) (dev : DriverState) (turns : ℕ)
    (sent : List UInt8) (rest : (env : ReplyEnv) → ℕ → Option SessionEnd) : Prop :=
  ((x.received dev).phase ≠ .exited ∧ (x.received dev).isIoctl = x.isIoctl) ∧
    ∀ env : ReplyEnv, env.Meets x.faults x.sends → ∀ fuel e, rest env fuel = some e →
      replyLoop env (fuel+turns) 0 (x.received dev).dev (rewindTo kernel (x.received dev)) =
        some { e with sent := sent ++ e.sent }

/-- The rest of turn `i` of the reply loop, from its `send` on, should that not fail. -/
def replySend (env : ReplyEnv) (fuel i : ℕ) (dev : DriverState) (fpos : ℕ) (data : List UInt8) :
    Option SessionEnd :=
  match env.send i data with
  | none => none
  | some n => (replyLoop env fuel (i+1) dev fpos).map fun e => { e with sent := data.take n ++ e.sent }

/-- What a thread inside knows of the device it found and of the one there is now. -/
def Stands (kernel : FixedSizeLlseek) (dev dev' : DriverState) (x : DeviceThread) : Prop :=
  match x.pc with
  | .lockMutex | .shutdown | .ended | .exited => True
  | .openLogFile =>
    { x with fpos := 0 }.session dev' .receiving = x.received dev ∧ x.faults = [] ∧ x.sends = [] ∧
      x.sent = []
  | .recv => x.session dev' .receiving = x.received dev ∧ x.faults = [] ∧ x.sends = [] ∧ x.sent = []
  | .handle r =>
    ∃ before, x.recvs = before ++ [r] ∧
      x.session dev' .receiving = { x with recvs := before }.received dev ∧
      x.faults = [] ∧ x.sends = [] ∧ x.sent = []
  | .rewind => ∃ phase ≠ SessionPhase.exited, x.session dev' phase = x.received dev ∧
      x.faults = [] ∧ x.sends = [] ∧ x.sent = []
  | .read => x.faults.length = x.sends.length ∧
      Replied kernel x dev x.sends.length x.sent fun env fuel =>
        replyLoop env fuel x.sends.length dev' x.fpos
  | .send data => x.faults.length = x.sends.length+1 ∧
      Replied kernel x dev (x.sends.length+1) x.sent fun env fuel =>
        replySend env fuel x.sends.length dev' x.fpos data
  | .closeLogFile | .unlockMutex =>
      Replied kernel x dev (x.sends.length+1) x.sent fun _ _ => some ⟨false, [], dev'⟩

def Knows (kernel : FixedSizeLlseek) (dev dev' : DriverState) (x : DeviceThread) : Prop :=
  x.inside = true ∧ Stands kernel dev dev' x

theorem own_stands (a : DeviceAnswer) (h : Stands kernel dev dev' x)
    (hk : x.kind = .own) : Stands kernel dev dev' (x.own a) := by
  unfold DeviceThread.kind at hk
  unfold DeviceThread.Stands at h
  cases hpc : x.pc with
  | openLogFile =>
    rw [hpc] at h
    simp only [DeviceThread.own, hpc]
    by_cases hopened : a.opened = true
    · rw [if_pos hopened]
      exact h
    · rw [if_neg hopened]
      trivial
  | recv =>
    rw [hpc] at h
    simp only [DeviceThread.own, hpc]
    cases a.recv with
    | none => exact ⟨.receiving, by decide, h⟩
    | some r => exact ⟨x.recvs, rfl, h⟩
  | send data =>
    rw [hpc] at h
    obtain ⟨hlen, hgo, hrest⟩ := h
    simp only [DeviceThread.own, hpc]
    by_cases hfailed : a.send = .failed
    · rw [if_pos hfailed]
      trivial
    · rw [if_neg hfailed]
      refine ⟨by simp [hlen], hgo, ?_⟩
      intro env hmeets fuel e he
      have hsend : env.send x.sends.length data = some (a.send.taken data) :=
        hmeets.send _ _ data (List.getElem?_concat_length ..)
      have hbefore : env.Meets x.faults x.sends :=
        ReplyEnv.Meets.before [] [a.send] (by simpa using hmeets)
      have hlength : (x.sends ++ [a.send]).length = x.sends.length+1 := List.length_append ..
      simp only [hlength] at he ⊢
      have h := hrest env hbefore fuel { e with sent := data.take (a.send.taken data) ++ e.sent }
        (by simp only [replySend, hsend, he, Option.map_some])
      rw [List.append_assoc]
      exact h
  | closeLogFile =>
    rw [hpc] at h
    simp only [DeviceThread.own, hpc]
    exact h
  | shutdown | ended | exited => simp [DeviceThread.own, hpc, DeviceThread.Stands]
  | lockMutex | handle r | rewind | read | unlockMutex => simp [hpc] at hk

theorem handleChunk_stands {before : List Recv} {r : Recv} (hrecvs : x.recvs = before ++ [r])
    (h : x.session dev' .receiving = { x with recvs := before }.received dev)
    (hnil : x.faults = [] ∧ x.sends = [] ∧ x.sent = []) :
    Stands kernel dev (handleChunk dev' x r).1 (handleChunk dev' x r).2 := by
  have hreceived : (handleChunk dev' x r).2.received dev =
      receive (x.session dev' .receiving) r := by
    change receiver.final (Session.start dev x.stackBuf x.stackSeekto) x.recvs = _
    rw [hrecvs, Machine.final_append, Machine.final_cons, Machine.final_nil]
    change (receiver.step ({ x with recvs := before }.received dev) r).1 = _
    rw [← h, receiver_step rfl]
  have hsession (phase : SessionPhase) (hphase : (receive (x.session dev' .receiving) r).phase = phase) :
      (handleChunk dev' x r).2.session (handleChunk dev' x r).1 phase =
        (handleChunk dev' x r).2.received dev := by
    rw [hreceived, ← hphase]
    rfl
  cases hphase : (receive (x.session dev' .receiving) r).phase with
  | receiving =>
    have hpc : (handleChunk dev' x r).2.pc = .recv := by simp only [handleChunk, hphase, afterTurn]
    simp only [DeviceThread.Stands, hpc]
    exact ⟨hsession _ hphase, hnil⟩
  | replying =>
    have hpc : (handleChunk dev' x r).2.pc = .rewind := by simp only [handleChunk, hphase, afterTurn]
    simp only [DeviceThread.Stands, hpc]
    exact ⟨.replying, by decide, hsession _ hphase, hnil⟩
  | exited =>
    have hpc : (handleChunk dev' x r).2.pc = .exited := by simp only [handleChunk, hphase, afterTurn]
    simp only [DeviceThread.Stands, hpc]

theorem readLog_stands (hlen : x.faults.length = x.sends.length)
    (h : Replied kernel x dev x.sends.length x.sent fun env fuel =>
      replyLoop env fuel x.sends.length dev' x.fpos) (copyFault : Bool) :
    Stands kernel dev (readLog dev' x copyFault).1 (readLog dev' x copyFault).2 := by
  obtain ⟨hgo, hrest⟩ := h
  -- a reply loop that meets this read makes the same turn
  have hturn {env : ReplyEnv} (hmeets : env.Meets (x.faults ++ [copyFault]) x.sends) :
      env.Meets x.faults x.sends ∧ env.copyFault x.sends.length = copyFault := by
    refine ⟨ReplyEnv.Meets.before [copyFault] [] (by simpa using hmeets), ?_⟩
    exact hmeets.copyFault _ _ (hlen ▸ List.getElem?_concat_length ..)
  by_cases hret : (aesdRead dev' x.fpos ⟨bufSize, copyFault⟩).retval > 0
  · have hpc : (readLog dev' x copyFault).2.pc =
        .send (aesdRead dev' x.fpos ⟨bufSize, copyFault⟩).data := if_pos hret
    simp only [DeviceThread.Stands, hpc]
    refine ⟨?_, hgo, ?_⟩
    · change (x.faults ++ [copyFault]).length = x.sends.length+1
      rw [List.length_append, hlen, List.length_singleton]
    · intro env hmeets fuel e he
      obtain ⟨hbefore, hfault⟩ := hturn hmeets
      have h := hrest env hbefore (fuel+1) e (by
        simp only [replyLoop, hfault, if_pos hret]
        change replySend env fuel x.sends.length _ _ _ = some e at he
        unfold replySend at he
        cases hsend : env.send x.sends.length (aesdRead dev' x.fpos ⟨bufSize, copyFault⟩).data with
        | none =>
          rw [hsend] at he
          cases he
        | some n =>
          rw [hsend] at he
          exact he)
      rw [Nat.add_right_comm] at h
      exact h
  · have hpc : (readLog dev' x copyFault).2.pc = .closeLogFile := if_neg hret
    simp only [DeviceThread.Stands, hpc]
    refine ⟨hgo, ?_⟩
    intro env hmeets fuel e he
    obtain ⟨hbefore, hfault⟩ := hturn hmeets
    have h := hrest env hbefore (fuel+1) e (by
      simp only [replyLoop, hfault, if_neg hret]
      exact he)
    rw [Nat.add_right_comm] at h
    exact h

theorem shared_stands (a : DeviceAnswer) (h : Stands kernel dev dev' x)
    (hk : x.kind = .shared) :
    Stands kernel dev (x.shared kernel dev' a).1 (x.shared kernel dev' a).2 := by
  unfold DeviceThread.kind at hk
  unfold DeviceThread.Stands at h
  cases hpc : x.pc with
  | handle r =>
    rw [hpc] at h
    obtain ⟨before, hrecvs, hsession, hnil⟩ := h
    simp only [DeviceThread.shared, hpc]
    exact handleChunk_stands hrecvs hsession hnil
  | rewind =>
    rw [hpc] at h
    obtain ⟨phase, hphase, hsession, hfaults, hsends, hsent⟩ := h
    simp only [DeviceThread.shared, hpc]
    have hgo : (x.received dev).phase ≠ .exited ∧ (x.received dev).isIoctl = x.isIoctl :=
      hsession ▸ ⟨hphase, rfl⟩
    have hdev : (x.received dev).dev = dev' := hsession ▸ rfl
    have hrewind : rewindTo kernel (x.received dev) = rewindTo kernel (x.session dev' .replying) :=
      hsession ▸ rfl
    refine ⟨by simp [hfaults, hsends], hgo, ?_⟩
    intro env _ fuel e he
    simp only [hsends, hsent, List.length_nil, Nat.add_zero, List.nil_append] at he ⊢
    change replyLoop env fuel 0 (x.received dev).dev (rewindTo kernel (x.received dev)) = some e
    rw [hdev, hrewind]
    exact he
  | read =>
    rw [hpc] at h
    simp only [DeviceThread.shared, hpc]
    exact readLog_stands h.1 h.2 a.copyFault
  | lockMutex | openLogFile | recv | send data | closeLogFile | unlockMutex | shutdown | ended
  | exited => simp [hpc] at hk

theorem side (x : DeviceThread) : Kind.Side x.kind x.inside := by
  unfold DeviceThread.kind DeviceThread.inside
  cases x.pc <;> trivial

theorem own_inside (a : DeviceAnswer) (hk : x.kind = .own) : (x.own a).inside = x.inside := by
  unfold DeviceThread.kind at hk
  cases hpc : x.pc with
  | openLogFile => cases ha : a.opened <;> simp [DeviceThread.own, DeviceThread.inside, hpc, ha]
  | recv => cases ha : a.recv <;> simp [DeviceThread.own, DeviceThread.inside, hpc, ha]
  | send data =>
    by_cases ha : a.send = .failed <;> simp [DeviceThread.own, DeviceThread.inside, hpc, ha]
  | closeLogFile | shutdown | ended | exited => simp [DeviceThread.own, DeviceThread.inside, hpc]
  | lockMutex | handle r | rewind | read | unlockMutex => simp [hpc] at hk

theorem shared_inside (a : DeviceAnswer) (hk : x.kind = .shared) :
    (x.shared kernel dev a).2.inside = true := by
  unfold DeviceThread.kind at hk
  cases hpc : x.pc with
  | handle r =>
    simp only [DeviceThread.shared, hpc, handleChunk, DeviceThread.inside]
    cases (receive (x.session dev .receiving) r).phase <;> rfl
  | rewind => simp [DeviceThread.shared, hpc, DeviceThread.inside]
  | read =>
    by_cases hret : (aesdRead dev x.fpos ⟨bufSize, a.copyFault⟩).retval > 0 <;>
      simp [DeviceThread.shared, hpc, readLog, DeviceThread.inside, hret]
  | lockMutex | openLogFile | recv | send data | closeLogFile | unlockMutex | shutdown | ended
  | exited => simp [hpc] at hk

theorem contract (kernel : FixedSizeLlseek) :
    (sendAndReceiveThread kernel).Contract inside (Knows kernel) where
  side x := x.side
  outside x a hk hout := (x.own_inside a hk).trans hout
  stays _ _ _ h := h.1
  locked _ _ _ := ⟨rfl, rfl, rfl, rfl, rfl⟩
  own _ _ x a hk h := ⟨(x.own_inside a hk).trans h.1, own_stands a h.2 hk⟩
  shared _ _ _ a hk h := ⟨shared_inside a hk, shared_stands a h.2 hk⟩
  unlocked _ _ := rfl

theorem Knows.replied (h : Knows kernel dev dev' x)
    (hk : (sendAndReceiveThread kernel).kind x = .unlock) :
    Replied kernel x dev (x.sends.length+1) x.sent fun _ _ => some ⟨false, [], dev'⟩ := by
  obtain ⟨-, hstands⟩ := h
  have hpc : x.pc = .unlockMutex := by
    change x.kind = .unlock at hk
    unfold DeviceThread.kind at hk
    cases hpc : x.pc <;> simp_all
  simp only [DeviceThread.Stands, hpc] at hstands
  exact hstands

theorem sendAndReceive_of_goes_on (kernel : FixedSizeLlseek) {c : Client}
    (hgo : (c.received dev).phase ≠ .exited) :
    sendAndReceive kernel dev c = replyLoop c.env (replyFuel (c.received dev).dev) 0
      (c.received dev).dev (rewindTo kernel (c.received dev)) := by
  cases hphase : (c.received dev).phase with
  | exited => exact absurd hphase hgo
  | receiving | replying => simp only [sendAndReceive, hphase, rewindTo]

/-- A thread that leaves its section has served its client. -/
theorem Knows.serves (hwf : DeviceWf dev) (h : Knows kernel dev dev' x)
    (hk : (sendAndReceiveThread kernel).kind x = .unlock) :
    sendAndReceive kernel dev x.client = some ⟨false, x.sent, dev'⟩ ∧ DeviceWf dev' := by
  obtain ⟨⟨hgo, -⟩, hrest⟩ := h.replied hk
  have hloop := hrest x.env x.env_meets 0 _ rfl
  simp only [List.append_nil] at hloop
  have hsends : x.client.env.Sends := fun _ _ => Option.some_ne_none _
  obtain ⟨e, hserve, hwf', -⟩ := sendAndReceive_exits_iff kernel hwf hsends (receiver_calm _ hgo)
  have hreply : sendAndReceive kernel dev x.client = replyLoop x.env (replyFuel (x.received dev).dev) 0
      (x.received dev).dev (rewindTo kernel (x.received dev)) := sendAndReceive_of_goes_on kernel hgo
  rw [hserve] at hreply
  obtain rfl := replyLoop_unique hloop hreply.symm
  exact ⟨hserve, hwf'⟩

end DeviceThread

end Thread

variable {T : Type*}

def clientsOf (past : List (T × DeviceThread)) : List Client := past.map fun e => e.2.client

/-- The session has sent what the thread has, and did not exit. -/
def AnsweredBy (e : T × DeviceThread) (o : Option SessionEnd) : Prop :=
  ∃ dev, o = some ⟨false, e.2.sent, dev⟩

theorem chain_serving {kernel : FixedSizeLlseek} {dev dev' : DriverState} (hwf : DeviceWf dev)
    {past : List (T × DeviceThread)}
    (h : Chain (DeviceThread.sendAndReceiveThread kernel) (DeviceThread.Knows kernel) dev past dev') :
    DeviceWf dev' ∧ dev' = (serving kernel).final dev (clientsOf past) ∧
      List.Forall₂ AnsweredBy past ((serving kernel).outputs dev (clientsOf past)) := by
  induction h with
  | nil => exact ⟨hwf, rfl, .nil⟩
  | @concat past s s' t x hbefore hlast hleaves ih =>
    obtain ⟨hwf', hfinal, houtputs⟩ := ih
    obtain ⟨hserve, hwf''⟩ := hlast.serves hwf' hleaves
    have hstep : (serving kernel).step s x.client = (s', some ⟨false, x.sent, s'⟩) := by
      simp only [serving, hserve, Option.map_some, Option.getD_some]
    have hclients : clientsOf (past ++ [(t, x)]) = clientsOf past ++ [x.client] := by
      simp [clientsOf]
    rw [hclients, Machine.final_append, Machine.outputs_append, ← hfinal]
    simp only [Machine.final_cons, Machine.final_nil, Machine.outputs_cons, Machine.outputs_nil, hstep]
    exact ⟨hwf'', trivial, List.rel_append houtputs (.cons ⟨s', rfl⟩ .nil)⟩

/-- However the statements of the session threads interleave, each thread that leaves
its section has served its client on the device that those before it left. -/
theorem threads_serve_in_turn [DecidableEq T] (kernel : FixedSizeLlseek) {dev : DriverState}
    (hdev : Reachable dev) {own : T → DeviceThread} (hout : ∀ t, (own t).inside = false)
    (moves : List (T × DeviceAnswer)) :
    let P := DeviceThread.sendAndReceiveThread kernel
    let w := (threads P).final (start dev own) moves
    let past := sections ((threads P).outputs (start dev own) moves)
    (w.holder = none → w.shared = (serving kernel).final dev (clientsOf past)) ∧
      List.Forall₂ AnsweredBy past ((serving kernel).outputs dev (clientsOf past)) := by
  intro P w past
  obtain ⟨dev', hchain, hheld⟩ :=
    (sections_in_turn (DeviceThread.contract kernel) dev hout moves).chain
  obtain ⟨-, hfinal, houtputs⟩ := chain_serving hdev.wf hchain
  refine ⟨fun hfree => ?_, houtputs⟩
  rw [← hfinal]
  rw [Held, hfree] at hheld
  exact hheld

/-- A thread that has been started, on a stack of zeros. -/
def startedThread : DeviceThread where
  pc := .lockMutex
  stackBuf := []
  stackSeekto := ⟨0, 0⟩
  fpos := 0
  buf := []
  seekto := ⟨0, 0⟩
  isIoctl := false
  recvs := []
  faults := []
  sends := []
  sent := []

/-- Two threads by turns, one with a line and one with nothing; the second has to wait. -/
def twoThreads : List (Bool × DeviceAnswer) :=
  let line : DeviceAnswer := ⟨true, some (plainRecv [124, 10] (by decide) (by decide)), false, .whole⟩
  let nothing : DeviceAnswer := ⟨true, none, false, .whole⟩
  (List.replicate 12 [(false, line), (true, nothing)]).flatten ++ List.replicate 9 (true, nothing)

theorem threads_serve_in_turn_two_threads :
    let P := DeviceThread.sendAndReceiveThread boundedLlseek
    let w := (threads P).final (start aesdInitModule fun _ => startedThread) twoThreads
    let past := sections ((threads P).outputs (start aesdInitModule fun _ => startedThread) twoThreads)
    w.shared = (serving boundedLlseek).final aesdInitModule (clientsOf past) ∧
      past.map (fun e => (e.1, e.2.sent)) = [(false, [124, 10]), (true, [124, 10])] := by
  intro P w past
  have h := threads_serve_in_turn boundedLlseek ⟨[], rfl⟩ (fun _ : Bool => (rfl : startedThread.inside = false))
    twoThreads
  exact ⟨h.1 (by decide +kernel), by decide +kernel⟩

end ProvenAesd.Server
