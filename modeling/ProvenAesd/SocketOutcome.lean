import ProvenAesd.SocketReply
import ProvenAesd.SocketRoom

/-! What a session leaves behind, when no call fails: with data alone the stream is
written as a whole, and with a seek command among the chunks it is not. -/
namespace ProvenAesd.Server
open BlockHeap BoundedQueue Mealy Driver Driver.DriverState

/-- What a session finds in the memory nobody has initialised: on its stack, and in
the memory that its `i`-th request is granted. -/
structure Surroundings where
  buf : List UInt8
  seekto : AesdSeekto
  fresh : ℕ → ℕ → UInt8

def recvsIn : (ℕ → ℕ → UInt8) → List Chunk → List Recv
  | _, [] => []
  | fresh, chunk :: chunks =>
    ⟨chunk, 0, .grant true (fresh 0), 0⟩ :: recvsIn (fun i => fresh (i+1)) chunks

/-- A client whose stream arrives in these chunks, and for whom no call fails. -/
def Surroundings.client (m : Surroundings) (chunks : List Chunk) : Client :=
  { plainClient (recvsIn m.fresh chunks) with buf := m.buf, seekto := m.seekto }

def chunkBytes (chunks : List Chunk) : List UInt8 := (chunks.map Chunk.bytes).flatten

structure ClientView where
  sent : List UInt8
  live : List (List UInt8)
  pending : List UInt8
  deriving DecidableEq, Repr

def SessionEnd.view (e : SessionEnd) : ClientView :=
  ⟨e.sent, e.dev.liveBytes, e.dev.pendingBytes⟩

def viewOf (st : LineStore.Store UInt8) : ClientView := ⟨st.lines.flatten, st.lines, st.pending⟩

/-- The store that the first write of a session adds to. -/
def Surroundings.carrying (m : Surroundings) (dev : DriverState) : LineStore.Store UInt8 :=
  ⟨dev.liveBytes, resize (dev.heap.contents dev.working.buffptr) dev.working.size (m.fresh 0)⟩

@[simp] theorem chunkBytes_nil : chunkBytes [] = [] := rfl

@[simp] theorem chunkBytes_cons (chunk : Chunk) (chunks : List Chunk) :
    chunkBytes (chunk :: chunks) = chunk.bytes ++ chunkBytes chunks := rfl

@[simp] theorem chunkBytes_append (chunks chunks' : List Chunk) :
    chunkBytes (chunks ++ chunks') = chunkBytes chunks ++ chunkBytes chunks' := by
  simp [chunkBytes]

theorem chunkBytes_ne_nil {chunks : List Chunk} (h : chunks ≠ []) : chunkBytes chunks ≠ [] := by
  obtain ⟨chunk, chunks, rfl⟩ := List.exists_cons_of_ne_nil h
  exact List.append_ne_nil_of_left_ne_nil chunk.ne_nil _

@[simp] theorem recvsIn_chunks (fresh : ℕ → ℕ → UInt8) (chunks : List Chunk) :
    (recvsIn fresh chunks).map Recv.chunk = chunks := by
  induction chunks generalizing fresh with
  | nil => rfl
  | cons chunk chunks ih => exact congrArg (chunk :: ·) (ih _)

@[simp] theorem recvBytes_recvsIn (fresh : ℕ → ℕ → UInt8) (chunks : List Chunk) :
    recvBytes (recvsIn fresh chunks) = chunkBytes chunks := by
  induction chunks generalizing fresh with
  | nil => rfl
  | cons chunk chunks ih => exact congrArg (chunk.bytes ++ ·) (ih _)

theorem packetRecvs_recvsIn (fresh : ℕ → ℕ → UInt8) (chunks : List Chunk) :
    packetRecvs (recvsIn fresh chunks) = recvsIn fresh (packetChunks chunks) := by
  induction chunks generalizing fresh with
  | nil => rfl
  | cons chunk chunks ih =>
    cases hend : chunk.endsPacket with
    | true => simp [recvsIn, packetRecvs, packetChunks, hend]
    | false => simp [recvsIn, packetRecvs, packetChunks, hend, ih]

theorem granting_recvsIn {fresh : ℕ → ℕ → UInt8} {chunks : List Chunk} :
    ∀ r ∈ recvsIn fresh chunks, Granting r := by
  induction chunks generalizing fresh with
  | nil =>
    intro r hr
    exact absurd hr List.not_mem_nil
  | cons chunk chunks ih =>
    intro r hr
    rcases List.mem_cons.mp hr with rfl | hr
    · exact ⟨rfl, fresh 0, rfl⟩
    · exact ih r hr

@[simp] theorem client_buf (m : Surroundings) (chunks : List Chunk) :
    (m.client chunks).buf = m.buf := rfl

@[simp] theorem client_seekto (m : Surroundings) (chunks : List Chunk) :
    (m.client chunks).seekto = m.seekto := rfl

@[simp] theorem client_recvs (m : Surroundings) (chunks : List Chunk) :
    (m.client chunks).recvs = recvsIn m.fresh chunks := rfl

theorem client_env_clean (m : Surroundings) (chunks : List Chunk) : (m.client chunks).env.Clean :=
  ⟨fun _ => rfl, fun _ _ => rfl⟩

section Data

variable {dev : DriverState} (hwf : DeviceWf dev) (m : Surroundings) {chunks : List Chunk}
  (hroom : Room dev (chunkBytes chunks).length)

include hwf hroom

theorem client_calm :
    receiver.Guarded RecvCalm (Session.start dev m.buf m.seekto) (m.client chunks).recvs := by
  apply calm_of_room granting_recvsIn _ hwf
  rw [recvBytes_recvsIn]
  exact hroom

/-- A session of data writes what it handles of its stream as a whole. -/
theorem client_data (kernel : FixedSizeLlseek) (hne : chunks ≠ [])
    (hdata : DataOnly m.buf chunks) :
    (sendAndReceive kernel dev (m.client chunks)).map SessionEnd.view =
      some (viewOf (LineStore.write newline 10 (m.carrying dev) (chunkBytes (packetChunks chunks))).1) := by
  have hcalm := client_calm hwf m hroom
  have hsafe : receiver.Guarded RecvSafe (Session.start dev m.buf m.seekto)
      (m.client chunks).recvs := by
    apply safe_of_calm _ _ hcalm
    rw [client_recvs, recvsIn_chunks]
    exact hdata
  obtain ⟨chunk, chunks, rfl⟩ := List.exists_cons_of_ne_nil hne
  obtain ⟨dev', hserve, -, -, hstore⟩ :=
    sendAndReceive_data kernel hwf (client_env_clean m _) rfl hsafe
  have hcarried : carriedInto (Session.start dev m.buf m.seekto)
      ⟨chunk, 0, .grant true (m.fresh 0), 0⟩ = (m.carrying dev).pending := by
    apply carriedInto_of_room hwf rfl
    apply hroom.mono
    rw [chunkBytes_cons, List.length_append]
    exact Nat.le_add_right _ _
  have hbytes : recvBytes (packetRecvs (m.client (chunk :: chunks)).recvs) =
      chunkBytes (packetChunks (chunk :: chunks)) := by
    rw [client_recvs, packetRecvs_recvsIn, recvBytes_recvsIn]
  rw [hbytes, client_buf, client_seekto, hcarried] at hstore
  rw [hserve, Option.map_some]
  exact congrArg (fun st => some (viewOf st)) hstore

end Data

section Seek

/-- At most `n` bytes have reached the line that the session adds to. When the line
stays open although the stream ends it, the session has exited. -/
inductive Within (lines : List (List UInt8)) (n : ℕ) (ends : Prop) (t : Session) : Prop
  | kept (live_eq : t.dev.liveBytes = lines) (size_le : t.dev.working.size ≤ n)
    (stopped : ends → t.phase = .exited)
  | committed (line : List UInt8) (live_eq : t.dev.liveBytes = (push 10 lines line).1)
    (length_le : line.length ≤ n) (pending_eq : t.dev.pendingBytes = [])

theorem Within.mono {lines : List (List UInt8)} {n : ℕ} {ends ends' : Prop} {t : Session}
    (h : Within lines n ends t) (hends : ends' → ends) : Within lines n ends' t := by
  cases h with
  | kept hlive hsize hstopped => exact .kept hlive hsize fun he => hstopped (hends he)
  | committed line hlive hlength hpending => exact .committed line hlive hlength hpending

theorem ends_of_cons {r : Recv} {rs : List Recv} (hopen : r.chunk.endsPacket = false)
    (h : (recvBytes (r :: rs)).getLast? = some newline) :
    (recvBytes rs).getLast? = some newline := by
  rw [Chunk.endsPacket_eq_false] at hopen
  rw [recvBytes_cons] at h
  by_cases hnil : rs = []
  · rw [hnil, recvBytes, List.map_nil, List.flatten_nil, List.append_nil] at h
    exact absurd h hopen
  · rwa [List.getLast?_append_of_ne_nil _ (recvBytes_ne_nil hnil)] at h

theorem not_seek_of_head {chunk : Chunk} (h : chunk.bytes.head? ≠ some 65) (buf : List UInt8) :
    ¬seekPrefix <+: recvInto buf chunk := by
  intro hp
  obtain ⟨b, bytes, hbytes⟩ := List.exists_cons_of_ne_nil chunk.ne_nil
  rw [recvInto, hbytes, List.cons_append, seekPrefix, List.cons_prefix_cons] at hp
  apply h
  rw [hbytes, ← hp.1]
  rfl

theorem receive_open {s : Session} {r : Recv} (hwf : DeviceWf s.dev) (hok : RecvOk s r)
    (hopen : r.chunk.endsPacket = false) :
    (receive s r).dev.liveBytes = s.dev.liveBytes ∧
      (receive s r).dev.working.size = s.dev.working.size+r.chunk.bytes.length := by
  have hr := receive_data hwf hok
  rw [Chunk.endsPacket_eq_false] at hopen
  rcases LineStore.write_cases newline 10 ⟨s.dev.liveBytes, carriedInto s r⟩ r.chunk.ne_nil with
    ⟨hlast, -⟩ | ⟨-, hw⟩
  · exact absurd hlast hopen
  · have hstore := hr.store_eq.trans hw
    have hpending : (receive s r).dev.pendingBytes = carriedInto s r ++ r.chunk.bytes :=
      congrArg LineStore.Store.pending hstore
    refine ⟨congrArg LineStore.Store.lines hstore, ?_⟩
    rw [size_of_intact hr.wf hr.intact, hpending, List.length_append, carriedInto_length hwf hok]

theorem receive_end {s : Session} {r : Recv} (hwf : DeviceWf s.dev) (hok : RecvOk s r)
    (hend : r.chunk.endsPacket = true) :
    ∃ line, (receive s r).dev.liveBytes = (push 10 s.dev.liveBytes line).1 ∧
      line.length = s.dev.working.size+r.chunk.bytes.length ∧
      (receive s r).dev.pendingBytes = [] := by
  have hr := receive_data hwf hok
  rw [Chunk.endsPacket_eq_true] at hend
  rcases LineStore.write_cases newline 10 ⟨s.dev.liveBytes, carriedInto s r⟩ r.chunk.ne_nil with
    ⟨-, hw⟩ | ⟨hlast, -⟩
  · have hstore := hr.store_eq.trans hw
    refine ⟨carriedInto s r ++ r.chunk.bytes, congrArg LineStore.Store.lines hstore, ?_,
      congrArg LineStore.Store.pending hstore⟩
    rw [List.length_append, carriedInto_length hwf hok]
  · exact absurd hend hlast

/-- A chunk that is taken for a seek command is not written, so that a session in
which there is one stores at least one byte less than its stream has. The
induction is on the chunks, with the room `n` for the bytes of the line. -/
theorem receive_within {n : ℕ} {rs : List Recv} :
    ∀ s : Session, s.phase = .receiving → DeviceWf s.dev → receiver.Guarded RecvCalm s rs →
      newline ∉ (recvBytes rs).dropLast →
      (∀ r ∈ rs, r.chunk.endsPacket = true → r.chunk.bytes.head? ≠ some 65) →
      s.dev.working.size+(recvBytes rs).length ≤ n+1 →
      (DataOnly s.buf (rs.map Recv.chunk) → s.dev.working.size+(recvBytes rs).length ≤ n) →
      Within s.dev.liveBytes n ((recvBytes rs).getLast? = some newline) (receiver.final s rs) := by
  induction rs with
  | nil =>
    intro s _ _ _ _ _ _ hdata
    apply Within.kept rfl (hdata trivial)
    intro hends
    cases hends
  | cons r rs ih =>
    intro s hphase hwf hcalm hnl hhead hle hdata
    obtain ⟨hrest, hfirst⟩ := not_mem_dropLast_append hnl
    have hhead' : ∀ r ∈ rs, r.chunk.endsPacket = true → r.chunk.bytes.head? ≠ some 65 :=
      fun r hr => hhead r (List.mem_cons_of_mem _ hr)
    have hcalm' : receiver.Guarded RecvCalm (receive s r) rs := receiver_step hphase r ▸ hcalm.2
    have hpos : 0 < r.chunk.bytes.length := r.chunk.rcvd_pos
    have hnext := receive_next s r
    rw [recvBytes_cons, List.length_append] at hle
    rw [Machine.final_cons, receiver_step hphase]
    by_cases hseek : seekPrefix <+: recvInto s.buf r.chunk
    · have hdev := receive_seek hseek
      have hopen : r.chunk.endsPacket = false := by
        rw [← Bool.not_eq_true]
        intro hend
        exact not_seek_of_head (hhead r List.mem_cons_self hend) s.buf hseek
      rcases hnext.2.2 with hexited | hgoes
      · -- the seek has failed, and with it the session
        have hidle : receiver.final (receive s r) rs = receive s r :=
          (receiver_idle (by rw [hexited]; decide) rs).1
        rw [hidle]
        apply Within.kept (congrArg liveBytes hdev)
        · rw [hdev]
          omega
        · intro _
          exact hexited
      · rw [hopen] at hgoes
        have h := ih (receive s r) hgoes (hdev ▸ hwf) hcalm' hrest hhead'
        rw [hdev] at h
        apply (h (by omega) fun _ => by omega).mono
        exact ends_of_cons hopen
    · have htest := seekTest_eq_false hseek
      obtain ⟨hcopied, hkrealloc⟩ := hcalm.1 hphase htest
      have hok : RecvOk s r := ⟨htest, hcopied, hkrealloc⟩
      have hr := receive_data hwf hok
      have hdata' : DataOnly (receive s r).buf (rs.map Recv.chunk) →
          s.dev.working.size+(r.chunk.bytes.length+(recvBytes rs).length) ≤ n := by
        intro hd
        rw [hnext.1] at hd
        rw [← List.length_append]
        exact hdata ⟨hseek, hd⟩
      have hphase' := hr.phase_eq
      cases hend : r.chunk.endsPacket with
      | true =>
        -- a newline ends the stream, and these are all its chunks
        have hnil : rs = [] := by
          by_contra hne
          rw [not_endsPacket (hfirst (recvBytes_ne_nil hne))] at hend
          cases hend
        obtain ⟨line, hlive, hlength, hpending⟩ := receive_end hwf hok hend
        rw [hnil] at hdata' ⊢
        apply Within.committed line hlive _ hpending
        rw [hlength]
        exact hdata' trivial
      | false =>
        rw [hend] at hphase'
        obtain ⟨hlive, hsize⟩ := receive_open hwf hok hend
        have h := ih (receive s r) hphase' hr.wf hcalm' hrest hhead'
        rw [hlive, hsize] at h
        apply (h (by omega) fun hd => by have hd' := hdata' hd; omega).mono
        exact ends_of_cons hend

/-- The reply changes nothing that is stored, and there is none after an exit. -/
theorem sendAndReceive_end {kernel : FixedSizeLlseek} {dev : DriverState} {c : Client} {e : SessionEnd}
    (h : sendAndReceive kernel dev c = some e) :
    SameStore (c.received dev).dev e.dev ∧
      ((c.received dev).phase = .exited → e.exited = true ∧ e.sent = []) := by
  cases hphase : (c.received dev).phase with
  | exited =>
    simp only [sendAndReceive, hphase, Option.some.injEq] at h
    rw [← h]
    exact ⟨SameStore.refl _, fun _ => ⟨rfl, rfl⟩⟩
  | receiving | replying =>
    simp only [sendAndReceive, hphase] at h
    exact ⟨replyLoop_sameStore h, fun hp => by cases hp⟩

/-- A session that has lost a byte of its stream does not leave what the write of
the whole stream would leave. -/
theorem view_of_within {kernel : FixedSizeLlseek} {dev : DriverState} {c : Client} {n : ℕ}
    {st : LineStore.Store UInt8} {w : List UInt8} (hne : w ≠ [])
    (hn : n < st.pending.length+w.length)
    (hw : Within st.lines n (w.getLast? = some newline) (c.received dev)) :
    (sendAndReceive kernel dev c).map SessionEnd.view ≠
      some (viewOf (LineStore.write newline 10 st w).1) := by
  intro h
  obtain ⟨e, hserve, hview⟩ := Option.map_eq_some_iff.mp h
  obtain ⟨hsame, hexit⟩ := sendAndReceive_end hserve
  have hstore := hsame.lineStore_eq
  have hlive : (c.received dev).dev.liveBytes = (LineStore.write newline 10 st w).1.lines :=
    (congrArg LineStore.Store.lines hstore).symm.trans (congrArg ClientView.live hview)
  have hpending : (c.received dev).dev.pendingBytes = (LineStore.write newline 10 st w).1.pending :=
    (congrArg LineStore.Store.pending hstore).symm.trans (congrArg ClientView.pending hview)
  have hsent : e.sent = (LineStore.write newline 10 st w).1.lines.flatten :=
    congrArg ClientView.sent hview
  have hlength : (st.pending ++ w).length = st.pending.length+w.length := List.length_append
  rcases LineStore.write_cases newline 10 st hne with ⟨hends, hwrite⟩ | ⟨hends, hwrite⟩ <;>
    rw [hwrite] at hlive hpending hsent
  · cases hw with
    | kept _ _ hstopped =>
      -- the reply has the line, and an exit sends none
      rw [(hexit (hstopped hends)).2] at hsent
      have hmem : st.pending ++ w ∈ (push 10 st.lines (st.pending ++ w)).1 :=
        List.mem_of_getLast? (push_getLast 10 st.lines _)
      have hnil := List.flatten_eq_nil_iff.mp hsent.symm _ hmem
      exact hne (List.append_eq_nil_iff.mp hnil).2
    | committed line hpush hle _ =>
      have hlast := congrArg List.getLast? (hpush.symm.trans hlive)
      rw [push_getLast, push_getLast, Option.some.injEq] at hlast
      rw [hlast] at hle
      omega
  · cases hw with
    | kept _ hle _ =>
      have hsize : (c.received dev).dev.pendingBytes.length ≤ (c.received dev).dev.working.size :=
        List.length_take_le ..
      rw [hpending] at hsize
      change (st.pending ++ w).length ≤ _ at hsize
      omega
    | committed _ _ _ hnil =>
      rw [hnil] at hpending
      exact hne (List.append_eq_nil_iff.mp hpending.symm).2

end Seek

/-- Where a chunk is taken for a seek command, the session does not leave what the
write of its stream would leave. -/
theorem client_seeks {dev : DriverState} (hwf : DeviceWf dev) (m : Surroundings)
    {chunks : List Chunk} (hroom : Room dev (chunkBytes chunks).length)
    (kernel : FixedSizeLlseek) (hseek : ¬DataOnly m.buf chunks)
    (hnl : newline ∉ (chunkBytes chunks).dropLast)
    (hhead : ∀ chunk ∈ chunks, chunk.endsPacket = true → chunk.bytes.head? ≠ some 65) :
    (sendAndReceive kernel dev (m.client chunks)).map SessionEnd.view ≠
      some (viewOf (LineStore.write newline 10 (m.carrying dev) (chunkBytes chunks)).1) := by
  have hne : chunkBytes chunks ≠ [] := by
    apply chunkBytes_ne_nil
    rintro rfl
    exact hseek trivial
  have hpos : 0 < (chunkBytes chunks).length := List.length_pos_iff.mpr hne
  have hwithin : Within dev.liveBytes (dev.working.size+(chunkBytes chunks).length-1)
      ((recvBytes (m.client chunks).recvs).getLast? = some newline) ((m.client chunks).received dev) := by
    apply receive_within (Session.start dev m.buf m.seekto) rfl hwf (client_calm hwf m hroom)
    · rw [client_recvs, recvBytes_recvsIn]
      exact hnl
    · intro r hr
      apply hhead
      rw [← recvsIn_chunks m.fresh chunks]
      exact List.mem_map_of_mem hr
    · rw [client_recvs, recvBytes_recvsIn]
      change dev.working.size+_ ≤ _
      omega
    · rw [client_recvs, recvsIn_chunks]
      intro hdata
      exact absurd hdata hseek
  rw [client_recvs, recvBytes_recvsIn] at hwithin
  have hcarried : (m.carrying dev).pending.length = dev.working.size := resize_length ..
  apply view_of_within hne (n := dev.working.size+(chunkBytes chunks).length-1)
  · omega
  · exact hwithin

end ProvenAesd.Server
