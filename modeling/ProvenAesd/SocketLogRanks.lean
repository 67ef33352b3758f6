import ProvenAesd.SectionRanks
import ProvenAesd.SocketLogTurns

/-! On the shared file too, a session that hears no more from its client comes to its
unlock, and so does a timer. -/
namespace ProvenAesd.Server
open LockedSections Mealy

/-- The statements before the unlock, if the client sends nothing more. -/
def FileSession.statementsLeft (file : LogFile) (x : FileSession) : ℕ :=
  match x.pc with
  | .seekEnd => 2*file.content.length+4
  | .recv => 2*file.content.length+3
  | .handle _ => 2*(file.content.length+bufSize)+4
  | .rewind => 2*file.content.length+2
  | .read => 2*(file.content.length-file.offset)+1
  | .send _ => 2*(file.content.length-file.offset)+2
  | .lockMutex | .unlockMutex | .shutdown | .ended | .exited => 0

def TimerThread.statementsLeft (x : TimerThread) : ℕ :=
  match x.pc with
  | .seekEnd => 4
  | .write parts => parts.length
  | .localtime | .lockMutex | .ended | .exited _ => 0

def LogThread.statementsLeft (file : LogFile) : LogThread → ℕ
  | session x => x.statementsLeft file
  | timer x => x.statementsLeft

/-- A timer has three parts to write, and a session nothing it must rely on. -/
def LogThread.Sound (_ : LogFile) : LogThread → Prop
  | session _ => True
  | timer x => ∀ parts, x.pc = .write parts → parts.length ≤ 3

section Session

variable {file : LogFile} {x : FileSession} {a : LogAnswer}

theorem FileSession.own_ranked (hk : x.kind = .own) (hin : x.inside = true) (ha : a.recv = none) :
    (x.own a).exited = true ∨ (x.own a).statementsLeft file < x.statementsLeft file := by
  unfold FileSession.kind at hk
  unfold FileSession.inside at hin
  cases hpc : x.pc with
  | recv => simp [FileSession.own, FileSession.statementsLeft, hpc, ha]
  | send data =>
    cases hcount : a.count with
    | none => simp [FileSession.own, FileSession.exited, hpc, hcount]
    | some n => simp [FileSession.own, FileSession.statementsLeft, hpc, hcount]
  | exited => simp [FileSession.own, FileSession.exited, hpc]
  | shutdown | ended => simp [hpc] at hin
  | lockMutex | seekEnd | handle chunk | rewind | read | unlockMutex => simp [hpc] at hk

theorem writeChunk_ranked (chunk : Chunk) (hpc : x.pc = .handle chunk) (count : Option ℕ) :
    let r := FileSession.writeChunk file x chunk count
    r.2.exited = true ∨ r.2.statementsLeft r.1 < x.statementsLeft file := by
  have hleft : x.statementsLeft file = 2*(file.content.length+bufSize)+4 := by
    simp only [FileSession.statementsLeft, hpc]
  rw [hleft]
  cases count with
  | none => exact Or.inl rfl
  | some n =>
    simp only [FileSession.writeChunk]
    by_cases hwhole : ((x.buf.take chunk.rcvd).take n).length = chunk.rcvd
    · right
      have hle : chunk.rcvd ≤ bufSize := chunk.le_bufSize
      have hlength : (file.append ((x.buf.take chunk.rcvd).take n)).content.length =
          file.content.length+chunk.rcvd := by
        rw [LogFile.append, List.length_append, hwhole]
      rw [if_pos hwhole]
      cases chunk.endsPacket with
      | true =>
        simp only [if_true, FileSession.statementsLeft, hlength]
        omega
      | false =>
        simp only [Bool.false_eq_true, if_false, FileSession.statementsLeft, hlength]
        omega
    · left
      rw [if_neg hwhole]
      rfl

theorem readSome_ranked (hpc : x.pc = .read) (count : Option ℕ) :
    let r := FileSession.readSome file x count
    r.2.statementsLeft r.1 < x.statementsLeft file := by
  have hleft : x.statementsLeft file = 2*(file.content.length-file.offset)+1 := by
    simp only [FileSession.statementsLeft, hpc]
  rw [hleft]
  cases count with
  | none => exact Nat.succ_pos _
  | some n =>
    simp only [FileSession.readSome]
    generalize hdata : (file.content.drop file.offset).take (min bufSize (n+1)) = data
    by_cases hnil : data = []
    · rw [if_pos hnil]
      exact Nat.succ_pos _
    · rw [if_neg hnil]
      have hpos := List.length_pos_of_ne_nil hnil
      have hfits : data.length ≤ file.content.length-file.offset := by
        rw [← hdata, List.length_take, List.length_drop]
        omega
      simp only [FileSession.statementsLeft]
      omega

theorem FileSession.shared_ranked (hk : x.kind = .shared) :
    (x.shared file a).2.exited = true ∨
      (x.shared file a).2.statementsLeft (x.shared file a).1 < x.statementsLeft file := by
  unfold FileSession.kind at hk
  cases hpc : x.pc with
  | seekEnd =>
    right
    simp [FileSession.shared, FileSession.statementsLeft, hpc]
  | handle chunk =>
    simp only [FileSession.shared, hpc]
    split
    · exact Or.inl rfl
    · exact writeChunk_ranked chunk hpc a.count
  | rewind =>
    right
    simp [FileSession.shared, FileSession.statementsLeft, hpc]
  | read =>
    right
    simp only [FileSession.shared, hpc]
    exact readSome_ranked hpc a.count
  | lockMutex | recv | send data | unlockMutex | shutdown | ended | exited => simp [hpc] at hk

end Session

section Timer

variable {file : LogFile} {x : TimerThread} {a : LogAnswer}

theorem TimerThread.own_ranked (hk : x.kind = .own) (hin : x.inside = true) :
    (x.own a).exited = true := by
  unfold TimerThread.kind at hk
  unfold TimerThread.inside at hin
  rcases hpc : x.pc with _ | _ | _ | (_ | _) | _ | _ <;>
    simp_all [TimerThread.own, TimerThread.exited]

theorem TimerThread.shared_ranked (hk : x.kind = .shared) :
    (x.shared file a).2.exited = true ∨
      (x.shared file a).2.statementsLeft < x.statementsLeft := by
  unfold TimerThread.kind at hk
  cases hpc : x.pc with
  | seekEnd =>
    simp only [TimerThread.shared, TimerThread.statementsLeft, TimerThread.exited, hpc]
    by_cases hrc : Int32.ofNat file.content.length = -1
    · simp only [if_pos hrc]
      exact Or.inl trivial
    · simp only [if_neg hrc]
      exact Or.inr (Nat.lt_succ_self 3)
  | write parts =>
    cases parts with
    | nil => simp [hpc] at hk
    | cons part parts =>
      simp only [TimerThread.shared, TimerThread.statementsLeft, TimerThread.exited, hpc]
      cases a.count with
      | none => exact Or.inl rfl
      | some n => exact Or.inr (Nat.lt_succ_self _)
  | localtime | lockMutex | ended | exited inside => simp [hpc] at hk

theorem TimerThread.own_sound (h : ∀ parts, x.pc = .write parts → parts.length ≤ 3)
    {parts : List (List UInt8)} (hpc' : (x.own a).pc = .write parts) : parts.length ≤ 3 := by
  cases hpc : x.pc with
  | localtime => cases ha : a.outstr <;> simp [TimerThread.own, hpc, ha] at hpc'
  | write rest =>
    have hsame : x.own a = x := by simp only [TimerThread.own, hpc]
    exact h parts (hsame ▸ hpc')
  | lockMutex | seekEnd | ended | exited inside => simp [TimerThread.own, hpc] at hpc'

theorem TimerThread.shared_sound (h : ∀ parts, x.pc = .write parts → parts.length ≤ 3)
    {parts : List (List UInt8)} (hpc' : (x.shared file a).2.pc = .write parts) : parts.length ≤ 3 := by
  cases hpc : x.pc with
  | seekEnd =>
    simp only [TimerThread.shared, hpc] at hpc'
    split at hpc'
    · cases hpc'
    · cases hpc'
      exact le_rfl
  | write all =>
    cases all with
    | nil =>
      have hsame : (x.shared file a).2 = x := by simp only [TimerThread.shared, hpc]
      exact h parts (hsame ▸ hpc')
    | cons part rest =>
      have hlength := h _ hpc
      rw [List.length_cons] at hlength
      cases hcount : a.count with
      | none => simp [TimerThread.shared, TimerThread.writePart, hpc, hcount] at hpc'
      | some n =>
        simp only [TimerThread.shared, TimerThread.writePart, hpc, hcount, TimerPc.write.injEq] at hpc'
        subst hpc'
        omega
  | localtime | lockMutex | ended | exited inside => simp [TimerThread.shared, hpc] at hpc'

end Timer

theorem log_keeps : LogThread.program.Keeps (fun _ => True) LogThread.Sound where
  locked
    | _, .session _, _, _ => trivial
    | _, .timer x, _, _ => fun parts hpc => by cases hpc
  own
    | _, .session _, _, _, _ => trivial
    | _, .timer _, _, _, h => fun _ hpc => TimerThread.own_sound h hpc
  shared
    | _, .session _, _, _, _ => trivial
    | _, .timer _, _, _, h => fun _ hpc => TimerThread.shared_sound h hpc
  unlocked _ _ _ _ := trivial

theorem log_ranked : LogThread.program.Ranked LogThread.inside LogThread.Sound
    (fun a => a.recv = none) LogThread.statementsLeft where
  own
    | _, .session _, _, hk, hin, _, ha => FileSession.own_ranked hk hin ha
    | _, .timer _, _, hk, hin, _, _ => Or.inl (TimerThread.own_ranked hk hin)
  shared
    | _, .session _, _, hk, _, _ => FileSession.shared_ranked hk
    | _, .timer _, _, hk, _, _ => TimerThread.shared_ranked hk

theorem LogThread.statementsLeft_le {file : LogFile} {x : LogThread} (h : x.Sound file) :
    x.statementsLeft file ≤ 2*(file.content.length+bufSize)+4 := by
  cases x with
  | session x =>
    simp only [LogThread.statementsLeft, FileSession.statementsLeft]
    split <;> omega
  | timer x =>
    simp only [LogThread.statementsLeft, TimerThread.statementsLeft]
    cases hpc : x.pc with
    | write parts =>
      have hlength := h parts hpc
      simp only
      omega
    | _ =>
      simp only
      omega

/-- Whoever holds the mutex gives it back: a timer always does, and a session when its
client sends nothing more. -/
theorem log_threads_release_mutex {T : Type*} [DecidableEq T] (file : LogFile)
    {own : T → LogThread} (hout : ∀ t, (own t).inside = false) (moves : List (T × LogAnswer))
    {t : T} :
    let w := (threads LogThread.program).final (start file own) moves
    w.holder = some t → ∀ more : List (T × LogAnswer), (∀ a, (t, a) ∈ more → a.recv = none) →
      2*(w.shared.content.length+bufSize)+4 < (more.map Prod.fst).count t →
      ((threads LogThread.program).final w more).exited = true ∨
        ∃ x, some (t, x) ∈ (threads LogThread.program).outputs w more := by
  intro w hin more hanswers hmany
  have hturn := sections_in_turn (log_contract.keeping log_keeps) file hout moves
  have hsound := hturn.holder_keeps log_keeps trivial hin
  have hleft := LogThread.statementsLeft_le hsound
  exact section_ends log_contract log_keeps log_ranked trivial hturn hin hanswers (hleft.trans_lt hmany)

/-- The timer has the mutex, and the session waits for it. -/
theorem log_threads_release_mutex_timer :
    let answer : LogAnswer := ⟨none, some 100, some [84]⟩
    let w := (threads LogThread.program).final (start ⟨[120], 0⟩ clientAndTimer)
      [(true, answer), (true, answer)]
    let more := (false, answer) :: List.replicate 2055 (true, answer)
    ((threads LogThread.program).final w more).exited = true ∨
      ∃ x, some (true, x) ∈ (threads LogThread.program).outputs w more := by
  intro answer w more
  have hout : ∀ t, (clientAndTimer t).inside = false := fun t => by cases t <;> rfl
  have hanswers (a : LogAnswer) (ha : (true, a) ∈ more) : a.recv = none := by
    rcases List.mem_cons.mp ha with hother | hmem
    · cases hother
    · cases List.eq_of_mem_replicate hmem
      rfl
  have hcontent : w.shared.content.length = 1 := rfl
  have hcount : (more.map Prod.fst).count true = 2055 := by
    rw [List.map_cons, List.map_replicate, List.count_cons_of_ne (by decide), List.count_replicate_self]
  have hmany : 2*(w.shared.content.length+bufSize)+4 < (more.map Prod.fst).count true := by
    rw [hcontent, hcount]
    decide
  exact log_threads_release_mutex ⟨[120], 0⟩ hout [(true, answer), (true, answer)] rfl more hanswers
    hmany

end ProvenAesd.Server
