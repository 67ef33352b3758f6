import ProvenAesd.SocketLogFile
import ProvenAesd.SocketReceive

/-! The shared file grows by whole sections: what a session receives, and what a timer
writes, lies there in one piece, and a client is answered with the file up to its own
bytes. -/
namespace ProvenAesd.Server
open LockedSections Mealy Driver

def FileSession.Collected (x : FileSession) : Prop :=
  x.written = (x.received.map Chunk.bytes).flatten

def FileSession.replied (x : FileSession) : List UInt8 := (x.reply.map Prod.fst).flatten

/-- What a session knows of itself and of the file while it is inside. -/
def FileSession.Stands (file : LogFile) (x : FileSession) : Prop :=
  match x.pc with
  | .lockMutex | .shutdown | .ended => False
  | .seekEnd | .recv | .rewind => x.Collected ∧ x.reply = []
  | .handle chunk =>
    (x.written ++ chunk.bytes = (x.received.map Chunk.bytes).flatten ∧ x.reply = []) ∧
      x.buf.take chunk.rcvd = chunk.bytes
  | .read => x.Collected ∧ x.replied = file.content.take file.offset
  | .send data => x.Collected ∧ x.replied ++ data = file.content.take file.offset
  | .unlockMutex => x.Collected ∧ (x.readFailed = false → x.replied = file.content)
  | .exited => True

def TimerThread.Stands (x : TimerThread) : Prop :=
  match x.pc with
  | .localtime | .lockMutex | .ended => False
  | .seekEnd => x.written = [] ∧ x.short = false
  | .write parts => x.short = false → x.written ++ parts.flatten = x.line
  | .exited inside => inside = true

def LogThread.Stands (file : LogFile) : LogThread → Prop
  | session x => x.Stands file
  | timer x => x.Stands

/-- What a thread inside knows: the file it found, with its own bytes behind. -/
def LogThread.Knows (file file' : LogFile) (x : LogThread) : Prop :=
  file'.content = file.content ++ x.written ∧ x.Stands file'

section Session

variable {file file' : LogFile} {x : FileSession}

theorem take_drop_append {xs : List UInt8} {n k : ℕ} {data : List UInt8}
    (h : data = (xs.drop n).take k) : xs.take n ++ data = xs.take (n+data.length) := by
  have hdata : data = (xs.drop n).take data.length := by
    rw [h, List.length_take, ← List.take_eq_take_min]
  rw [List.take_add, ← hdata]

theorem FileSession.own_stands (a : LogAnswer) (h : x.Stands file) (hk : x.kind = .own) :
    (x.own a).written = x.written ∧ (x.own a).Stands file := by
  unfold FileSession.kind at hk
  unfold FileSession.Stands at h
  cases hpc : x.pc with
  | recv =>
    rw [hpc] at h
    cases ha : a.recv with
    | none =>
      simp only [FileSession.own, hpc, ha, FileSession.Stands]
      exact ⟨trivial, h⟩
    | some chunk =>
      simp only [FileSession.own, hpc, ha, FileSession.Stands]
      refine ⟨trivial, ⟨?_, h.2⟩, recvInto_take _ _⟩
      rw [h.1]
      simp
  | send data =>
    rw [hpc] at h
    cases ha : a.count with
    | none => simp [FileSession.own, hpc, ha, FileSession.Stands]
    | some n =>
      simp only [FileSession.own, hpc, ha, FileSession.Stands]
      refine ⟨trivial, h.1, ?_⟩
      rw [← h.2, FileSession.replied, FileSession.replied, List.map_append, List.flatten_append]
      simp
  | exited => simp [FileSession.own, hpc, FileSession.Stands]
  | shutdown | ended => simp [hpc] at h
  | lockMutex | seekEnd | handle chunk | rewind | read | unlockMutex => simp [hpc] at hk

/-- What a statement of the session adds to the file is what it records. -/
def LogThread.Adds (file : LogFile) (before after : List UInt8) (file' : LogFile) : Prop :=
  ∃ bytes, after = before ++ bytes ∧ file'.content = file.content ++ bytes

theorem adds_nothing {file file' : LogFile} (h : file'.content = file.content)
    (written : List UInt8) : LogThread.Adds file written written file' :=
  ⟨[], by simp, by simp [h]⟩

theorem writeChunk_stands {chunk : Chunk}
    (hx : x.written ++ chunk.bytes = (x.received.map Chunk.bytes).flatten ∧ x.reply = [])
    (hbuf : x.buf.take chunk.rcvd = chunk.bytes) (count : Option ℕ) :
    let r := FileSession.writeChunk file x chunk count
    LogThread.Adds file x.written r.2.written r.1 ∧ r.2.Stands r.1 := by
  cases count with
  | none => exact ⟨adds_nothing rfl _, trivial⟩
  | some n =>
    refine ⟨⟨_, rfl, rfl⟩, ?_⟩
    simp only [FileSession.writeChunk, hbuf]
    by_cases hwhole : (chunk.bytes.take n).length = chunk.rcvd
    · have htake : chunk.bytes.take n = chunk.bytes :=
        List.take_of_length_le (by rw [List.length_take] at hwhole; exact min_eq_right_iff.mp hwhole)
      have hcollected : x.written ++ chunk.bytes.take n =
          (x.received.map Chunk.bytes).flatten := by
        rw [htake, hx.1]
      rw [if_pos hwhole]
      cases chunk.endsPacket <;> exact ⟨hcollected, hx.2⟩
    · rw [if_neg hwhole]
      trivial

theorem readSome_stands (hx : x.Collected) (hreply : x.replied = file.content.take file.offset)
    (count : Option ℕ) :
    let r := FileSession.readSome file x count
    LogThread.Adds file x.written r.2.written r.1 ∧ r.2.Stands r.1 := by
  cases count with
  | none => exact ⟨adds_nothing rfl _, hx, nofun⟩
  | some n =>
    simp only [FileSession.readSome]
    generalize hdata : (file.content.drop file.offset).take (min bufSize (n+1)) = data
    by_cases hnil : data = []
    · rw [if_pos hnil]
      refine ⟨adds_nothing rfl _, hx, fun _ => ?_⟩
      -- a read of nothing is at the end of the file
      have hend : file.content.drop file.offset = [] := by
        rw [hnil, List.take_eq_nil_iff] at hdata
        exact hdata.resolve_left (by simp)
      have hle := List.drop_eq_nil_iff.mp hend
      exact hreply.trans (List.take_of_length_le hle)
    · rw [if_neg hnil]
      refine ⟨adds_nothing rfl _, hx, ?_⟩
      change x.replied ++ data = _
      rw [hreply, take_drop_append hdata.symm]

theorem FileSession.shared_stands (a : LogAnswer) (h : x.Stands file) (hk : x.kind = .shared) :
    let r := x.shared file a
    LogThread.Adds file x.written r.2.written r.1 ∧ r.2.Stands r.1 := by
  unfold FileSession.kind at hk
  unfold FileSession.Stands at h
  cases hpc : x.pc with
  | seekEnd =>
    rw [hpc] at h
    simp only [FileSession.shared, hpc]
    exact ⟨adds_nothing rfl _, h⟩
  | handle chunk =>
    rw [hpc] at h
    simp only [FileSession.shared, hpc]
    by_cases hseek : strncmpEq x.buf seekPrefix 19 = true
    · rw [if_pos hseek]
      exact ⟨adds_nothing rfl _, trivial⟩
    · rw [if_neg hseek]
      exact writeChunk_stands h.1 h.2 a.count
  | rewind =>
    rw [hpc] at h
    simp only [FileSession.shared, hpc]
    refine ⟨adds_nothing rfl _, h.1, ?_⟩
    simp [FileSession.replied, h.2]
  | read =>
    rw [hpc] at h
    simp only [FileSession.shared, hpc]
    exact readSome_stands h.1 h.2 a.count
  | lockMutex | recv | send data | unlockMutex | shutdown | ended | exited => simp [hpc] at hk

end Session

theorem TimerThread.writePart_stands {x : TimerThread} {file : LogFile} {part : List UInt8}
    {parts : List (List UInt8)}
    (h : x.short = false → x.written ++ (part :: parts).flatten = x.line) (count : Option ℕ) :
    let r := TimerThread.writePart file x part parts count
    LogThread.Adds file x.written r.2.written r.1 ∧ r.2.Stands := by
  cases count with
  | none => exact ⟨adds_nothing rfl _, rfl⟩
  | some n =>
    refine ⟨⟨_, rfl, rfl⟩, fun hshort => ?_⟩
    obtain ⟨hshort, hwhole⟩ := Bool.or_eq_false_iff.mp hshort
    have htake : part.take n = part := List.take_of_length_le (by simpa using hwhole)
    change x.written ++ part.take n ++ parts.flatten = x.line
    rw [htake, ← h hshort, List.flatten_cons, List.append_assoc]

theorem TimerThread.shared_stands {x : TimerThread} (file : LogFile) (a : LogAnswer)
    (h : x.Stands) (hk : x.kind = .shared) :
    let r := x.shared file a
    LogThread.Adds file x.written r.2.written r.1 ∧ r.2.Stands := by
  unfold TimerThread.kind at hk
  unfold TimerThread.Stands at h
  match hpc : x.pc with
  | .seekEnd =>
    rw [hpc] at h
    simp only [TimerThread.shared, hpc]
    refine ⟨adds_nothing rfl _, ?_⟩
    by_cases hrc : Int32.ofNat file.content.length = -1
    · simp only [if_pos hrc]
      rfl
    · simp only [if_neg hrc]
      intro _
      change x.written ++ _ = x.line
      rw [h.1]
      simp [TimerThread.line]
  | .write (part :: parts) =>
    rw [hpc] at h
    simp only [TimerThread.shared, hpc]
    exact TimerThread.writePart_stands h a.count
  | .write [] | .localtime | .lockMutex | .ended | .exited _ => simp [hpc] at hk

theorem FileSession.stands_inside {x : FileSession} {file : LogFile} (h : x.Stands file) :
    x.inside = true := by
  unfold FileSession.Stands at h
  unfold FileSession.inside
  cases hpc : x.pc <;> simp_all

theorem TimerThread.stands_inside {x : TimerThread} (h : x.Stands) : x.inside = true := by
  unfold TimerThread.Stands at h
  unfold TimerThread.inside
  cases hpc : x.pc <;> simp_all

/-- Inside, a timer thread has no statements of its own. -/
theorem TimerThread.own_idle {x : TimerThread} (a : LogAnswer) (h : x.Stands) (hk : x.kind = .own) :
    x.own a = x := by
  unfold TimerThread.Stands at h
  unfold TimerThread.kind at hk
  unfold TimerThread.own
  cases hpc : x.pc <;> simp_all

theorem LogThread.Knows.add {file file' file'' : LogFile} {x y : LogThread}
    (h : x.Knows file file') (hadds : LogThread.Adds file' x.written y.written file'')
    (hstands : y.Stands file'') : y.Knows file file'' := by
  obtain ⟨bytes, hwritten, hcontent⟩ := hadds
  refine ⟨?_, hstands⟩
  rw [hcontent, h.1, hwritten, List.append_assoc]

theorem FileSession.own_outside {x : FileSession} (a : LogAnswer) (hk : x.kind = .own)
    (hout : x.inside = false) : (x.own a).inside = false := by
  unfold FileSession.kind at hk
  unfold FileSession.inside at hout
  cases hpc : x.pc <;> simp_all [FileSession.own, FileSession.inside]

theorem TimerThread.own_outside {x : TimerThread} (a : LogAnswer) (hk : x.kind = .own)
    (hout : x.inside = false) : (x.own a).inside = false := by
  unfold TimerThread.kind at hk
  unfold TimerThread.inside at hout
  cases hpc : x.pc with
  | localtime => cases ha : a.outstr <;> simp [TimerThread.own, TimerThread.inside, hpc, ha]
  | _ => simp_all [TimerThread.own, TimerThread.inside]

theorem log_contract : LogThread.program.Contract LogThread.inside LogThread.Knows where
  side
    | .session x => x.side
    | .timer x => x.side
  outside
    | .session _, a, hk, hout => FileSession.own_outside a hk hout
    | .timer _, a, hk, hout => TimerThread.own_outside a hk hout
  stays
    | _, _, .session _, h => FileSession.stands_inside h.2
    | _, _, .timer _, h => TimerThread.stands_inside h.2
  locked
    | file, .session x, _ => ⟨by simp [LogThread.program, LogThread.written, FileSession.locked], rfl, rfl⟩
    | file, .timer x, _ => ⟨by simp [LogThread.program, LogThread.written, TimerThread.locked], rfl, rfl⟩
  own
    | _, file', .session x, a, hk, h => by
      obtain ⟨hwritten, hstands⟩ := FileSession.own_stands a h.2 hk
      have hadds : LogThread.Adds file' x.written (x.own a).written file' :=
        hwritten ▸ adds_nothing rfl _
      exact h.add (y := .session _) hadds hstands
    | file, file', .timer x, a, hk, h => by
      change LogThread.Knows file file' (.timer (x.own a))
      rw [TimerThread.own_idle a h.2 hk]
      exact h
  shared
    | _, _, .session x, a, hk, h => by
      obtain ⟨hadds, hstands⟩ := FileSession.shared_stands a h.2 hk
      exact h.add (y := .session _) hadds hstands
    | _, file', .timer x, a, hk, h => by
      obtain ⟨hadds, hstands⟩ := TimerThread.shared_stands file' a h.2 hk
      exact h.add (y := .timer _) hadds hstands
  unlocked
    | .session _, _ => rfl
    | .timer _, _ => rfl

variable {T : Type*}

def writtenBy (past : List (T × LogThread)) : List UInt8 := (past.map fun e => e.2.written).flatten

def unfinished (w : World T LogFile LogThread) : List UInt8 :=
  match w.holder with
  | none => []
  | some t => (w.own t).written

/-- What a thread has done when it leaves a file with this content. -/
def LogThread.Done (content : List UInt8) : LogThread → Prop
  | session x => x.Collected ∧
      (x.readFailed = false → (∀ p ∈ x.reply, p.1.length ≤ p.2) → x.sent = content)
  | timer x => x.short = false → x.written = x.line

theorem FileSession.sent_eq {x : FileSession} (h : ∀ p ∈ x.reply, p.1.length ≤ p.2) :
    x.sent = x.replied := by
  rw [FileSession.sent, FileSession.replied]
  congr 1
  apply List.map_congr_left
  intro p hp
  exact List.take_of_length_le (h p hp)

theorem LogThread.Knows.done {file file' : LogFile} {x : LogThread} (h : x.Knows file file')
    (hk : LogThread.program.kind x = .unlock) : x.Done (file.content ++ x.written) := by
  obtain ⟨hcontent, hstands⟩ := h
  rw [← hcontent]
  cases x with
  | session x =>
    have hpc : x.pc = .unlockMutex := by
      change x.kind = .unlock at hk
      unfold FileSession.kind at hk
      cases hpc : x.pc <;> simp_all
    simp only [LogThread.Stands, FileSession.Stands, hpc] at hstands
    refine ⟨hstands.1, fun hfailed hsends => ?_⟩
    rw [FileSession.sent_eq hsends, hstands.2 hfailed]
  | timer x =>
    have hpc : x.pc = .write [] := by
      change x.kind = .unlock at hk
      unfold TimerThread.kind at hk
      rcases hpc : x.pc with _ | _ | _ | (_ | _) | _ | _ <;> simp_all
    simp only [LogThread.Stands, TimerThread.Stands, hpc] at hstands
    intro hshort
    simpa using hstands hshort

theorem chain_content {file file' : LogFile} {past : List (T × LogThread)}
    (h : Chain LogThread.program LogThread.Knows file past file') :
    file'.content = file.content ++ writtenBy past := by
  induction h with
  | nil => simp [writtenBy]
  | concat hbefore hlast hleaves ih =>
    rw [hlast.1, ih]
    simp [writtenBy]

/-- However the sessions and the timers interleave, the file holds what each of them
has written in one piece, a client gets the file up to its own bytes, and no two
threads are inside at once. -/
theorem log_grows_by_sections [DecidableEq T] (file : LogFile) {own : T → LogThread}
    (hout : ∀ t, (own t).inside = false) (moves : List (T × LogAnswer)) :
    let w := (threads LogThread.program).final (start file own) moves
    let past := sections ((threads LogThread.program).outputs (start file own) moves)
    w.shared.content = file.content ++ writtenBy past ++ unfinished w ∧
      (∀ before e after, past = before ++ e :: after →
        e.2.Done (file.content ++ writtenBy before ++ e.2.written)) ∧
      ∀ t u, (w.own t).inside = true → (w.own u).inside = true → t = u := by
  intro w past
  have hturns := sections_in_turn log_contract file hout moves
  obtain ⟨file', hchain, hheld⟩ := hturns.chain
  refine ⟨?_, ?_, fun _ _ => hturns.mutual_exclusion⟩
  · rw [← chain_content hchain]
    unfold Held at hheld
    unfold unfinished
    cases hh : w.holder with
    | none =>
      rw [hh] at hheld
      simp [w, hheld]
    | some t =>
      rw [hh] at hheld
      exact hheld.1
  · intro before e after hpast
    obtain ⟨file₁, file₂, hbefore, hlast, hleaves⟩ := hchain.exists_section hpast
    have hdone := hlast.done hleaves
    rw [chain_content hbefore] at hdone
    exact hdone

def clientAndTimer : Bool → LogThread
  | false => .session ⟨.lockMutex, [], [], [], [], false⟩
  | true => .timer ⟨.localtime, [], [], false⟩

/-- The timer comes to the mutex while the session has received but not yet written. -/
def clientThenTimer : List (Bool × LogAnswer) :=
  let line : Chunk := ⟨[97, newline], by decide, by decide⟩
  let a : LogAnswer := ⟨some line, some 100, some [77, 111, 110]⟩
  [(false, a), (false, a), (true, a), (false, a), (true, a), (true, a), (false, a), (false, a),
    (false, a), (false, a), (false, a), (false, a), (true, a), (true, a), (true, a), (true, a),
    (true, a), (true, a)]

theorem log_grows_by_sections_client_and_timer :
    let w := (threads LogThread.program).final (start ⟨[120], 0⟩ clientAndTimer) clientThenTimer
    w.shared.content = [120, 97, newline] ++ TimerThread.stampPrefix ++ [77, 111, 110, newline] ∧
      ∀ before e after,
        sections ((threads LogThread.program).outputs (start ⟨[120], 0⟩ clientAndTimer)
          clientThenTimer) = before ++ e :: after →
        e.2.Done ([120] ++ writtenBy before ++ e.2.written) := by
  have hout : ∀ t, (clientAndTimer t).inside = false := by decide
  have h := log_grows_by_sections ⟨[120], 0⟩ hout clientThenTimer
  exact ⟨h.1.trans rfl, h.2.1⟩

end ProvenAesd.Server
