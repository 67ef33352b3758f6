import ProvenAesd.SectionRanks
import ProvenAesd.SocketThreadTurns

/-! A session that hears no more from its client comes to its unlock, in a number of its
own statements that the stored bytes bound. -/
namespace ProvenAesd.Server
open BoundedQueue ConcatOffset LockedSections Mealy Driver Driver.DriverState

def storedLength (dev : DriverState) : ℕ := dev.liveBytes.flatten.length

theorem push_flatten_length_le {α : Type*} (lines : List (List α)) (line : List α) :
    (push 10 lines line).1.flatten.length ≤ lines.flatten.length+line.length := by
  have hall := congrArg (fun ls => ls.flatten.length) (push_conserves 10 lines line (by decide))
  simp only [List.flatten_append, List.length_append, List.flatten_singleton] at hall
  omega

namespace DeviceThread

/-- A thread inside finds the device well-formed, and reads from a position in reach. -/
def Sound (dev : DriverState) (x : DeviceThread) : Prop :=
  match x.pc with
  | .openLogFile | .closeLogFile | .unlockMutex => DeviceWf dev
  | .recv | .handle _ => DeviceWf dev ∧ InReach (x.session dev .receiving)
  | .rewind | .read | .send _ => DeviceWf dev ∧ x.fpos+1 < 2^64
  | .lockMutex | .shutdown | .ended | .exited => True

/-- The statements before the unlock, if the client sends nothing more; two for each turn
of the reply loop, which reads a byte at least. -/
def statementsLeft (dev : DriverState) (x : DeviceThread) : ℕ :=
  match x.pc with
  | .openLogFile => 2*storedLength dev+5
  | .recv => 2*storedLength dev+4
  | .handle r => 2*storedLength (handleChunk dev x r).1+5
  | .rewind => 2*storedLength dev+3
  | .read => 2*(storedLength dev-x.fpos)+2
  | .send _ => 2*(storedLength dev-x.fpos)+3
  | .closeLogFile => 1
  | .lockMutex | .unlockMutex | .shutdown | .ended | .exited => 0

section Thread

variable {kernel : FixedSizeLlseek} {dev : DriverState} {x : DeviceThread}

theorem own_sound (a : DeviceAnswer) (hk : x.kind = .own) (h : Sound dev x) : Sound dev (x.own a) := by
  unfold DeviceThread.kind at hk
  unfold DeviceThread.Sound at h
  cases hpc : x.pc with
  | openLogFile =>
    rw [hpc] at h
    simp only [DeviceThread.own, hpc]
    by_cases hopened : a.opened = true
    · rw [if_pos hopened]
      have hstart : 0+1 < 2^64 := by decide
      exact ⟨h, hstart, fun _ => ⟨0, by decide, Nat.zero_le _⟩⟩
    · rw [if_neg hopened]
      trivial
  | recv =>
    rw [hpc] at h
    simp only [DeviceThread.own, hpc]
    cases a.recv with
    | none => exact ⟨h.1, h.2.fpos_lt⟩
    | some r => exact h
  | send data =>
    rw [hpc] at h
    simp only [DeviceThread.own, hpc]
    by_cases hfailed : a.send = .failed
    · rw [if_pos hfailed]
      trivial
    · rw [if_neg hfailed]
      exact h
  | closeLogFile =>
    rw [hpc] at h
    simp only [DeviceThread.own, hpc]
    exact h
  | shutdown | ended | exited => simp [DeviceThread.own, hpc, DeviceThread.Sound]
  | lockMutex | handle r | rewind | read | unlockMutex => simp [hpc] at hk

theorem handleChunk_sound {r : Recv} (hwf : DeviceWf dev) (h : InReach (x.session dev .receiving)) :
    Sound (handleChunk dev x r).1 (handleChunk dev x r).2 := by
  cases hphase : (receive (x.session dev .receiving) r).phase with
  | exited =>
    have hpc : (handleChunk dev x r).2.pc = .exited := by simp only [handleChunk, hphase, afterTurn]
    simp only [DeviceThread.Sound, hpc]
  | receiving =>
    have hpc : (handleChunk dev x r).2.pc = .recv := by simp only [handleChunk, hphase, afterTurn]
    have hgoes : (receive (x.session dev .receiving) r).phase ≠ .exited := by rw [hphase]; decide
    have hturned := receive_turned (r := r) rfl hwf h (recvCalm_of_goes_on hgoes)
    have hsession : (handleChunk dev x r).2.session (handleChunk dev x r).1 .receiving =
        receive (x.session dev .receiving) r := by
      rw [← hphase]
      rfl
    simp only [DeviceThread.Sound, hpc, hsession]
    exact ⟨hturned.wf, hturned.inReach⟩
  | replying =>
    have hpc : (handleChunk dev x r).2.pc = .rewind := by simp only [handleChunk, hphase, afterTurn]
    have hgoes : (receive (x.session dev .receiving) r).phase ≠ .exited := by rw [hphase]; decide
    have hturned := receive_turned (r := r) rfl hwf h (recvCalm_of_goes_on hgoes)
    simp only [DeviceThread.Sound, hpc]
    exact ⟨hturned.wf, hturned.inReach.fpos_lt⟩

theorem rewindTo_lt (h : x.fpos+1 < 2^64) : rewindTo kernel (x.session dev .replying)+1 < 2^64 := by
  unfold rewindTo
  split
  · exact h
  · rw [llseek_rewind]
    decide

/-- A read that returns data leaves less to be read, and a position in reach. -/
theorem read_nears {fpos : ℕ} (hwf : DeviceWf dev) (hp : fpos+1 < 2^64) (copyFault : Bool) :
    let o := aesdRead dev fpos ⟨bufSize, copyFault⟩
    o.fpos+1 < 2^64 ∧
      (o.retval > 0 → storedLength o.state-o.fpos < storedLength dev-fpos) := by
  intro o
  have hlive : storedLength o.state = storedLength dev :=
    congrArg (fun lines : List (List UInt8) => lines.flatten.length)
      (read_liveBytes dev fpos ⟨bufSize, copyFault⟩)
  rcases read_cases hwf hp ⟨bufSize, copyFault⟩ with he | hf | hd
  · have hret : o.retval = 0 := he.retval_eq
    have hfpos : o.fpos = fpos := he.fpos_eq
    exact ⟨by omega, by omega⟩
  · have hret : o.retval = -EFAULT := hf.retval_eq
    have hneg : (-EFAULT : ℤ) < 0 := by decide
    have hfpos : o.fpos = fpos := hf.fpos_eq
    exact ⟨by omega, by omega⟩
  · have htotal := hwf.total_lt
    have hbefore := hd.before_end
    have hfpos : o.fpos = fpos+o.data.length := hd.fpos_eq
    have hdata : o.data = pieceAt dev.liveBytes fpos bufSize := hd.data_eq
    have hpos := pieceAt_length_pos hbefore (by decide : 0 < bufSize)
    have hfits := (pieceAt_segment dev.liveBytes fpos bufSize).length_le
    rw [← hdata] at hpos hfits
    rw [List.length_drop] at hfits
    have hstored : storedLength dev = dev.liveBytes.flatten.length := rfl
    exact ⟨by omega, by omega⟩

theorem shared_sound (a : DeviceAnswer) (hk : x.kind = .shared) (h : Sound dev x) :
    Sound (x.shared kernel dev a).1 (x.shared kernel dev a).2 := by
  unfold DeviceThread.kind at hk
  unfold DeviceThread.Sound at h
  cases hpc : x.pc with
  | handle r =>
    rw [hpc] at h
    simp only [DeviceThread.shared, hpc]
    exact handleChunk_sound h.1 h.2
  | rewind =>
    rw [hpc] at h
    simp only [DeviceThread.shared, hpc]
    exact ⟨h.1, rewindTo_lt h.2⟩
  | read =>
    rw [hpc] at h
    have hwf := read_wf h.1 x.fpos ⟨bufSize, a.copyFault⟩
    have hlt := (read_nears h.1 h.2 a.copyFault).1
    simp only [DeviceThread.shared, hpc]
    by_cases hret : (aesdRead dev x.fpos ⟨bufSize, a.copyFault⟩).retval > 0
    · simp only [readLog, DeviceThread.Sound, if_pos hret]
      exact ⟨hwf, hlt⟩
    · simp only [readLog, DeviceThread.Sound, if_neg hret]
      exact hwf
  | lockMutex | openLogFile | recv | send data | closeLogFile | unlockMutex | shutdown | ended
  | exited => simp [hpc] at hk

theorem keeps (kernel : FixedSizeLlseek) : (sendAndReceiveThread kernel).Keeps DeviceWf Sound where
  locked _ _ _ h := h
  own _ _ a hk h := own_sound a hk h
  shared _ _ a hk h := shared_sound a hk h
  unlocked dev x hk h := by
    have hpc : x.pc = .unlockMutex := by
      change x.kind = .unlock at hk
      unfold DeviceThread.kind at hk
      cases hpc : x.pc <;> simp_all
    simp only [DeviceThread.Sound, hpc] at h
    exact h

theorem own_ranked {a : DeviceAnswer} (hk : x.kind = .own) (hin : x.inside = true)
    (ha : a.recv = none) :
    (x.own a).exited = true ∨ statementsLeft dev (x.own a) < statementsLeft dev x := by
  unfold DeviceThread.kind at hk
  unfold DeviceThread.inside at hin
  cases hpc : x.pc with
  | openLogFile =>
    by_cases hopened : a.opened = true
    · simp [DeviceThread.own, statementsLeft, hpc, hopened]
    · simp [DeviceThread.own, DeviceThread.exited, hpc, hopened]
  | recv => simp [DeviceThread.own, statementsLeft, hpc, ha]
  | send data =>
    by_cases hfailed : a.send = .failed
    · simp [DeviceThread.own, DeviceThread.exited, hpc, hfailed]
    · simp [DeviceThread.own, statementsLeft, hpc, hfailed]
  | closeLogFile => simp [DeviceThread.own, statementsLeft, hpc]
  | exited => simp [DeviceThread.own, DeviceThread.exited, hpc]
  | shutdown | ended => simp [hpc] at hin
  | lockMutex | handle r | rewind | read | unlockMutex => simp [hpc] at hk

theorem shared_ranked (a : DeviceAnswer) (hk : x.kind = .shared) (h : Sound dev x) :
    (x.shared kernel dev a).2.exited = true ∨
      statementsLeft (x.shared kernel dev a).1 (x.shared kernel dev a).2 < statementsLeft dev x := by
  unfold DeviceThread.kind at hk
  unfold DeviceThread.Sound at h
  cases hpc : x.pc with
  | handle r =>
    cases hphase : (receive (x.session dev .receiving) r).phase with
    | exited =>
      left
      simp only [DeviceThread.shared, hpc, handleChunk, hphase, afterTurn, DeviceThread.exited]
    | receiving | replying =>
      right
      have hleft : statementsLeft dev x = 2*storedLength (handleChunk dev x r).1+5 := by
        simp only [statementsLeft, hpc]
      rw [hleft]
      simp only [DeviceThread.shared, hpc, statementsLeft, handleChunk, hphase, afterTurn]
      omega
  | rewind =>
    right
    simp only [DeviceThread.shared, statementsLeft, hpc]
    omega
  | read =>
    right
    rw [hpc] at h
    have hnears := (read_nears h.1 h.2 a.copyFault).2
    by_cases hret : (aesdRead dev x.fpos ⟨bufSize, a.copyFault⟩).retval > 0
    · have hlt := hnears hret
      simp only [DeviceThread.shared, hpc, readLog, statementsLeft, if_pos hret]
      omega
    · simp only [DeviceThread.shared, hpc, readLog, statementsLeft, if_neg hret]
      omega
  | lockMutex | openLogFile | recv | send data | closeLogFile | unlockMutex | shutdown | ended
  | exited => simp [hpc] at hk

theorem ranked (kernel : FixedSizeLlseek) :
    (sendAndReceiveThread kernel).Ranked inside Sound (fun a => a.recv = none) statementsLeft where
  own _ _ _ hk hin _ ha := own_ranked hk hin ha
  shared _ _ a hk h _ := shared_ranked a hk h

/-- A turn of the receive loop adds the unfinished line and the chunk to what is stored
at most. -/
theorem handleChunk_storedLength (hwf : DeviceWf dev) (r : Recv) :
    storedLength (handleChunk dev x r).1 ≤ storedLength dev+dev.working.size+bufSize := by
  cases hseek : strncmpEq (recvInto x.buf r.chunk) seekPrefix 19 with
  | true =>
    have hprefix : seekPrefix <+: recvInto x.buf r.chunk := (seekTest_iff _).mp hseek
    have hsought := receive_sought (s := x.session dev .receiving)
      (chunkAction_of_seek hprefix r.chunk.rcvd x.seekto)
    have hdev : (handleChunk dev x r).1 = dev := hsought.dev_eq
    rw [hdev]
    omega
  | false =>
    have hdev : (handleChunk dev x r).1 =
        (aesdWrite dev x.fpos (recvCall (recvInto x.buf r.chunk) r)).state :=
      (receive_wrote (s := x.session dev .receiving) hseek).dev_eq
    rw [hdev]
    rcases (write_cases hwf x.fpos (recvCall (recvInto x.buf r.chunk) r)).2 with
      hrefused | hfaulted | hacc
    · have hlive : storedLength (aesdWrite dev x.fpos (recvCall (recvInto x.buf r.chunk) r)).state =
          storedLength dev := by
        rw [hrefused.state_eq]
        rfl
      omega
    · exact absurd hfaulted.nothing (recvCall_something dev x.buf r).ne'
    · rcases hacc.outcome with ⟨-, hkept⟩ | ⟨-, hover⟩
      · rw [storedLength, hkept.liveBytes_eq, ← storedLength]
        omega
      · have hdata : (recvCall (recvInto x.buf r.chunk) r).data.length ≤ bufSize := by
          rw [WriteCall.data, List.length_take, WriteCall.copied, recvCall_count]
          have hle := r.chunk.le_bufSize
          have hrcvd : r.chunk.rcvd = r.chunk.bytes.length := rfl
          omega
        have hline := push_flatten_length_le dev.liveBytes
          (carriedBytes dev (recvCall (recvInto x.buf r.chunk) r) ++
            (recvCall (recvInto x.buf r.chunk) r).data)
        rw [List.length_append, hacc.carried_length] at hline
        rw [storedLength, hover.liveBytes_eq]
        have hstored : storedLength dev = dev.liveBytes.flatten.length := rfl
        omega

theorem statementsLeft_le (h : Sound dev x) :
    statementsLeft dev x ≤ 2*(storedLength dev+dev.working.size+bufSize)+5 := by
  unfold DeviceThread.Sound at h
  unfold statementsLeft
  cases hpc : x.pc with
  | handle r =>
    rw [hpc] at h
    have hlength := handleChunk_storedLength (x := x) h.1 r
    simp only
    omega
  | _ =>
    simp only
    omega

end Thread

end DeviceThread

/-- A thread that holds the mutex and hears no more from its client gives it back, after
so many statements of its own as the stored bytes bound, whatever the others do
meanwhile, unless the process ends. -/
theorem sessions_release_mutex {T : Type*} [DecidableEq T] (kernel : FixedSizeLlseek)
    {dev : DriverState} (hdev : Reachable dev) {own : T → DeviceThread}
    (hout : ∀ t, (own t).inside = false) (moves : List (T × DeviceAnswer)) {t : T} :
    let P := DeviceThread.sendAndReceiveThread kernel
    let w := (threads P).final (start dev own) moves
    w.holder = some t → ∀ more : List (T × DeviceAnswer), (∀ a, (t, a) ∈ more → a.recv = none) →
      2*(storedLength w.shared+w.shared.working.size+bufSize)+5 < (more.map Prod.fst).count t →
      ((threads P).final w more).exited = true ∨ ∃ x, some (t, x) ∈ (threads P).outputs w more := by
  intro P w hin more hanswers hmany
  have hQ := DeviceThread.keeps kernel
  have hturn := sections_in_turn ((DeviceThread.contract kernel).keeping hQ) dev hout moves
  have hsound := hturn.holder_keeps hQ hdev.wf hin
  have hleft := DeviceThread.statementsLeft_le hsound
  exact section_ends (DeviceThread.contract kernel) hQ (DeviceThread.ranked kernel) hdev.wf hturn hin
    hanswers (hleft.trans_lt hmany)

/-- The device holds a line, which the client is sent although it closes at once; the other
thread waits for the mutex meanwhile. -/
theorem sessions_release_mutex_closed_client :
    let P := DeviceThread.sendAndReceiveThread boundedLlseek
    let closed : DeviceAnswer := ⟨true, none, false, .whole⟩
    let dev := driver.final aesdInitModule [.write 0 (plainWrite [125, 10] (by decide))]
    let w := (threads P).final (start dev fun _ => startedThread) [(false, closed)]
    let more := (true, closed) :: List.replicate 2058 (false, closed)
    (((threads P).final w more).exited = true ∨
        ∃ x, some (false, x) ∈ (threads P).outputs w more) ∧
      (((threads P).final w (more.take 6)).own false).sent = [125, 10] := by
  intro P closed dev w more
  have hdev : Reachable dev := ⟨_, rfl⟩
  have hanswers (a : DeviceAnswer) (ha : (false, a) ∈ more) : a.recv = none := by
    rcases List.mem_cons.mp ha with hother | hmem
    · cases hother
    · cases List.eq_of_mem_replicate hmem
      rfl
  have hstored : storedLength w.shared+w.shared.working.size = 2 := by decide +kernel
  have hcount : (more.map Prod.fst).count false = 2058 := by
    rw [List.map_cons, List.map_replicate, List.count_cons_of_ne (by decide), List.count_replicate_self]
  have hmany : 2*(storedLength w.shared+w.shared.working.size+bufSize)+5 <
      (more.map Prod.fst).count false := by
    rw [hstored, hcount]
    decide
  refine ⟨?_, by decide +kernel⟩
  exact sessions_release_mutex boundedLlseek hdev
    (fun _ : Bool => (rfl : startedThread.inside = false)) [(false, closed)] rfl more hanswers hmany

end ProvenAesd.Server
