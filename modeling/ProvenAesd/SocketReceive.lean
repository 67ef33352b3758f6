import ProvenAesd.AESDWriteConservation
import ProvenAesd.SocketSession
import ProvenAesd.SocketStaleBytes

/-! The receive loop on data: however a stream is cut into chunks, what the loop
handles of it is stored as by one write. -/
namespace ProvenAesd.Server
open BlockHeap BoundedQueue Mealy Driver Driver.DriverState

/-- The chunk is not taken for a seek command, and its write succeeds. -/
structure RecvOk (s : Session) (r : Recv) : Prop where
  not_seek : strncmpEq (recvInto s.buf r.chunk) seekPrefix 19 = false
  all_copied : r.notCopied = 0
  krealloc_ok : KreallocOk s.dev (recvCall (recvInto s.buf r.chunk) r)

/-- The same for the chunks that are received. -/
def RecvSafe (s : Session) (r : Recv) : Prop := s.phase = .receiving → RecvOk s r

theorem recvInto_take (buf : List UInt8) (chunk : Chunk) :
    (recvInto buf chunk).take chunk.rcvd = chunk.bytes := List.take_left' rfl

theorem RecvOk.action {s : Session} {r : Recv} (h : RecvOk s r) :
    chunkAction (recvInto s.buf r.chunk) r.chunk.rcvd s.seekto = .data r.chunk.bytes := by
  rw [chunkAction, h.not_seek, recvInto_take]
  rfl

theorem recvCall_count (buf : List UInt8) (r : Recv) :
    (recvCall (recvInto buf r.chunk) r).count = r.chunk.rcvd :=
  congrArg List.length (recvInto_take buf r.chunk)

theorem recvCall_something (s : DriverState) (buf : List UInt8) (r : Recv) :
    0 < s.working.size+(recvCall (recvInto buf r.chunk) r).count := by
  rw [recvCall_count]
  exact Nat.add_pos_right _ r.chunk.rcvd_pos

theorem recvCall_data (buf : List UInt8) {r : Recv} (h : r.notCopied = 0) :
    (recvCall (recvInto buf r.chunk) r).copied = r.chunk.rcvd ∧
      (recvCall (recvInto buf r.chunk) r).data = r.chunk.bytes := by
  have hbuf : (recvCall (recvInto buf r.chunk) r).buf = r.chunk.bytes := recvInto_take buf r.chunk
  have hcopied : (recvCall (recvInto buf r.chunk) r).copied = r.chunk.rcvd := by
    have hnone : (recvCall (recvInto buf r.chunk) r).notCopied = 0 := by simp [recvCall, h]
    rw [WriteCall.copied, WriteCall.count, hnone, hbuf]
    rfl
  refine ⟨hcopied, ?_⟩
  rw [WriteCall.data, hcopied, hbuf]
  exact List.take_length

def carriedInto (s : Session) (r : Recv) : List UInt8 :=
  carriedBytes s.dev (recvCall (recvInto s.buf r.chunk) r)

/-- What one turn of the receive loop does with a chunk of data. -/
structure Received (s : Session) (r : Recv) (t : Session) : Prop where
  wf : DeviceWf t.dev
  intact : t.dev.Intact
  store_eq : lineStore t.dev =
    (LineStore.write newline 10 ⟨s.dev.liveBytes, carriedInto s r⟩ r.chunk.bytes).1
  isIoctl_eq : t.isIoctl = s.isIoctl
  phase_eq : t.phase = if r.chunk.endsPacket then .replying else .receiving

theorem receive_data {s : Session} {r : Recv} (hwf : DeviceWf s.dev) (h : RecvOk s r) :
    Received s r (receive s r) := by
  obtain ⟨hcopied, hdata⟩ := recvCall_data s.buf h.all_copied
  have hpos := r.chunk.rcvd_pos
  have hkrealloc := h.krealloc_ok
  have hcarried : carriedInto s r = carriedBytes s.dev (recvCall (recvInto s.buf r.chunk) r) := rfl
  obtain ⟨hdev, -, hio, hphase⟩ := receive_wrote h.not_seek
  generalize recvCall (recvInto s.buf r.chunk) r = call at *
  have hsome : 0 < call.copied := by omega
  have hok : WriteOk s.dev (s.fpos, call) := ⟨hkrealloc, hsome⟩
  obtain ⟨hint, hstore⟩ := write_carried hwf hok
  have hfull : (aesdWrite s.dev s.fpos call).retval = r.chunk.rcvd := by
    rw [write_retval_of_ok hok.1 s.fpos, hcopied]
  rw [if_pos hfull] at hphase
  refine ⟨hdev ▸ (write_cases hwf s.fpos call).1, hdev ▸ hint, ?_, hio, hphase⟩
  rw [hdev, hcarried, ← hdata]
  exact congrArg Prod.fst hstore

theorem carriedInto_of_intact {s : Session} {r : Recv} (hwf : DeviceWf s.dev)
    (hint : s.dev.Intact) (h : RecvOk s r) : carriedInto s r = s.dev.pendingBytes :=
  (write_accepted hwf h.krealloc_ok (recvCall_something s.dev s.buf r) s.fpos).carried_eq hint

theorem carriedInto_length {s : Session} {r : Recv} (hwf : DeviceWf s.dev) (h : RecvOk s r) :
    (carriedInto s r).length = s.dev.working.size :=
  (write_accepted hwf h.krealloc_ok (recvCall_something s.dev s.buf r) s.fpos).carried_length

def packetChunks : List Chunk → List Chunk
  | [] => []
  | chunk :: chunks => chunk :: if chunk.endsPacket then [] else packetChunks chunks

def packetRecvs : List Recv → List Recv
  | [] => []
  | r :: rs => r :: if r.chunk.endsPacket then [] else packetRecvs rs

def recvBytes (rs : List Recv) : List UInt8 := (rs.map fun r => r.chunk.bytes).flatten

@[simp] theorem recvBytes_cons (r : Recv) (rs : List Recv) :
    recvBytes (r :: rs) = r.chunk.bytes ++ recvBytes rs := rfl

theorem packetRecvs_of_ends {r : Recv} (h : r.chunk.endsPacket = true) (rs : List Recv) :
    packetRecvs (r :: rs) = [r] := by
  rw [packetRecvs, h]
  rfl

theorem packetRecvs_of_open {r : Recv} (h : r.chunk.endsPacket = false) (rs : List Recv) :
    packetRecvs (r :: rs) = r :: packetRecvs rs := by
  rw [packetRecvs, h]
  rfl

theorem not_mem_dropLast_append {b : UInt8} {xs ys : List UInt8} (h : b ∉ (xs ++ ys).dropLast) :
    b ∉ ys.dropLast ∧ (ys ≠ [] → b ∉ xs) := by
  cases ys with
  | nil => exact ⟨List.not_mem_nil, fun hne => absurd rfl hne⟩
  | cons y ys =>
    rw [List.dropLast_append_of_ne_nil (List.cons_ne_nil y ys), List.mem_append, not_or] at h
    exact ⟨h.2, fun _ => h.1⟩

theorem not_endsPacket {chunk : Chunk} (h : newline ∉ chunk.bytes) : chunk.endsPacket = false := by
  apply Chunk.endsPacket_eq_false.mpr
  intro he
  exact h (List.mem_of_getLast? he)

theorem recvBytes_ne_nil {rs : List Recv} (h : rs ≠ []) : recvBytes rs ≠ [] := by
  obtain ⟨r, rs, rfl⟩ := List.exists_cons_of_ne_nil h
  exact List.append_ne_nil_of_left_ne_nil r.chunk.ne_nil _

/-- A stream with a newline at most at its end is handled to its end. -/
theorem packetRecvs_eq {rs : List Recv} (h : newline ∉ (recvBytes rs).dropLast) :
    packetRecvs rs = rs := by
  induction rs with
  | nil => rfl
  | cons r rs ih =>
    obtain ⟨hrest, hfirst⟩ := not_mem_dropLast_append h
    by_cases hnil : rs = []
    · rw [hnil, packetRecvs]
      split <;> rfl
    · have hopen : r.chunk.endsPacket = false :=
        not_endsPacket (hfirst (recvBytes_ne_nil hnil))
      rw [packetRecvs_of_open hopen, ih hrest]

theorem receiver_step {s : Session} (h : s.phase = .receiving) (r : Recv) :
    (receiver.step s r).1 = receive s r := by
  simp only [receiver, h]

/-- However the stream is cut, the loop stores what it handles of it as one write
would. The induction is on the chunks behind the first. -/
theorem receive_run (rs : List Recv) :
    ∀ (r : Recv) (s : Session), s.phase = .receiving → DeviceWf s.dev →
      receiver.Guarded RecvSafe s (r :: rs) →
      let t := receiver.final s (r :: rs)
      DeviceWf t.dev ∧ t.dev.Intact ∧
        lineStore t.dev = (LineStore.write newline 10 ⟨s.dev.liveBytes, carriedInto s r⟩
          (recvBytes (packetRecvs (r :: rs)))).1 ∧
        t.isIoctl = s.isIoctl ∧ t.phase ≠ .exited := by
  induction rs with
  | nil =>
    intro r s hphase hwf hg
    have hr := receive_data hwf (hg.1 hphase)
    have hbytes : recvBytes (packetRecvs [r]) = r.chunk.bytes := by
      have hone : packetRecvs [r] = [r] := by
        rw [packetRecvs]
        split <;> rfl
      rw [hone]
      exact List.append_nil _
    rw [Machine.final_cons, receiver_step hphase, Machine.final_nil, hbytes]
    refine ⟨hr.wf, hr.intact, hr.store_eq, hr.isIoctl_eq, ?_⟩
    rw [hr.phase_eq]
    split <;> decide
  | cons r' rs ih =>
    intro r s hphase hwf hg
    have hr := receive_data hwf (hg.1 hphase)
    rw [Machine.final_cons, receiver_step hphase]
    cases hend : r.chunk.endsPacket with
    | true =>
      -- the chunk ends the loop, and the others are not received
      have hphase' : (receive s r).phase = .replying := by
        rw [hr.phase_eq, hend]
        rfl
      have hidle : receiver.final (receive s r) (r' :: rs) = receive s r :=
        (receiver_idle (by rw [hphase']; decide) (r' :: rs)).1
      rw [hidle, packetRecvs_of_ends hend]
      refine ⟨hr.wf, hr.intact, ?_, hr.isIoctl_eq, by rw [hphase']; decide⟩
      rw [hr.store_eq]
      congr 2
      exact (List.append_nil _).symm
    | false =>
      -- the line is open, so the rest of the run writes behind this chunk
      have hphase' : (receive s r).phase = .receiving := by
        rw [hr.phase_eq, hend]
        rfl
      have hg' : receiver.Guarded RecvSafe (receive s r) (r' :: rs) := receiver_step hphase r ▸ hg.2
      obtain ⟨hwf', hint', hstore, hio, hnot⟩ := ih r' (receive s r) hphase' hr.wf hg'
      refine ⟨hwf', hint', ?_, hio.trans hr.isIoctl_eq, hnot⟩
      have hopen : r.chunk.bytes.getLast? ≠ some newline := Chunk.endsPacket_eq_false.mp hend
      have hcarried : carriedInto (receive s r) r' = (receive s r).dev.pendingBytes :=
        carriedInto_of_intact hr.wf hr.intact (hg'.1 hphase')
      have hline : (⟨(receive s r).dev.liveBytes, (receive s r).dev.pendingBytes⟩ :
          LineStore.Store UInt8) = lineStore (receive s r).dev := rfl
      rw [hstore, hcarried, hline, hr.store_eq, packetRecvs_of_open hend, recvBytes_cons,
        LineStore.write_append 10 _ r.chunk.ne_nil hopen]

end ProvenAesd.Server
