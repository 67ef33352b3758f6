import ProvenAesd.AESDWriteIndex
import ProvenAesd.SocketOutcome

/-! Which sessions the bytes of a committed entry come from. An unfinished line
outlives its session in the device, so the pieces it is made of are noted beside it. -/
namespace ProvenAesd.Server
open BlockHeap BoundedQueue Mealy Driver Driver.DriverState

structure Piece where
  session : ℕ
  bytes : List UInt8
  deriving DecidableEq, Repr

def spell (pieces : List Piece) : List UInt8 := (pieces.map Piece.bytes).flatten

/-- An entry that has been handed over to the ring, and the pieces it was made of. -/
structure Packet where
  entry : List UInt8
  pieces : List Piece
  deriving DecidableEq, Repr

/-- The entry consists of bytes that one single session has received. -/
structure Packet.OneSession (packet : Packet) : Prop where
  spelled : packet.entry = spell packet.pieces
  single : ∃ k, ∀ piece ∈ packet.pieces, piece.bytes ≠ [] → piece.session = k

/-- A session under way, and the pieces of the line in the working entry. -/
structure Traced where
  session : Session
  pieces : List Piece

def chunkCall (s : Session) (r : Recv) : WriteCall := recvCall (recvInto s.buf r.chunk) r

def traceStep (k : ℕ) (t : Traced) (r : Recv) : Traced × Option Packet :=
  match chunkAction (recvInto t.session.buf r.chunk) r.chunk.rcvd t.session.seekto with
  | .seek _ => ({ t with session := receive t.session r }, none)
  | .data _ =>
    let o := aesdWrite t.session.dev t.session.fpos (chunkCall t.session r)
    -- a write that gets no memory takes no bytes
    let pieces :=
      if o.retval < 0 then t.pieces else t.pieces ++ [⟨k, (chunkCall t.session r).data⟩]
    match o.committed with
    | some entry => (⟨receive t.session r, []⟩, some ⟨entry, pieces⟩)
    | none => (⟨receive t.session r, pieces⟩, none)

/-- The receive loop with its pieces; the output is the entry a turn commits. -/
def tracer (k : ℕ) : Machine Traced Recv (Option Packet) where
  step t r :=
    match t.session.phase with
    | .receiving => traceStep k t r
    | _ => (t, none)

/-- The device between two sessions, the pieces of its unfinished line, the number
of sessions so far, and whether the process is still there. -/
structure PacketLog where
  dev : DriverState
  pieces : List Piece
  sessions : ℕ
  up : Bool

def packetLogInit : PacketLog where
  dev := aesdInitModule
  pieces := []
  sessions := 0
  up := true

def PacketLog.start (p : PacketLog) (c : Client) : Traced :=
  ⟨Session.start p.dev c.buf c.seekto, p.pieces⟩

/-- Sessions in the order in which they get the mutex; the output is the entries that
the session commits. -/
def packetServer (kernel : FixedSizeLlseek) : Machine PacketLog Client (List Packet) where
  step p c :=
    if p.up then
      let packets := ((tracer p.sessions).outputs (p.start c) c.recvs).reduceOption
      match sendAndReceive kernel p.dev c with
      | some e =>
        ({ dev := e.dev
           pieces := ((tracer p.sessions).final (p.start c) c.recvs).pieces
           sessions := p.sessions+1
           up := !e.exited }, packets)
      | none => ({ p with up := false }, packets)
    else (p, [])

/-- The chunk is data, and the bytes that reach the device end the line there. -/
structure Completes (s : Session) (r : Recv) : Prop where
  receiving : s.phase = .receiving
  not_seek : strncmpEq (recvInto s.buf r.chunk) seekPrefix 19 = false
  krealloc_ok : KreallocOk s.dev (chunkCall s r)
  ends : (chunkCall s r).data.getLast? = some newline

/-- The session finds no unfinished line, or does not complete the one it finds. -/
def Isolated (p : PacketLog) (c : Client) : Prop :=
  p.up = true → p.dev.working.size = 0 ∨
    receiver.Guarded (fun s r => ¬Completes s r) (Session.start p.dev c.buf c.seekto) c.recvs

@[simp] theorem spell_nil : spell [] = [] := rfl

@[simp] theorem spell_append (ps qs : List Piece) : spell (ps ++ qs) = spell ps ++ spell qs := by
  simp [spell]

@[simp] theorem spell_singleton (piece : Piece) : spell [piece] = piece.bytes := by
  simp [spell]

theorem spell_eq_nil {ps : List Piece} : spell ps = [] ↔ ∀ piece ∈ ps, piece.bytes = [] := by
  simp [spell]

theorem tracer_session (k : ℕ) (t : Traced) (r : Recv) :
    ((tracer k).step t r).1.session = (receiver.step t.session r).1 := by
  cases hphase : t.session.phase with
  | receiving =>
    simp only [tracer, receiver, hphase, traceStep]
    split
    · rfl
    · split <;> rfl
  | replying | exited => simp only [tracer, receiver, hphase]

theorem Completes.data_ne_nil {s : Session} {r : Recv} (h : Completes s r) :
    (chunkCall s r).data ≠ [] := by
  intro hnil
  have hends := h.ends
  rw [hnil] at hends
  cases hends

section Write

variable {s : Session} {r : Recv}

theorem chunkCall_whole (h : (chunkCall s r).copied = r.chunk.rcvd) :
    (chunkCall s r).data = r.chunk.bytes := by
  have hbuf : (chunkCall s r).buf = r.chunk.bytes := recvInto_take s.buf r.chunk
  rw [WriteCall.data, h, hbuf]
  exact List.take_length

/-- A line that is handed over is the last one of its session. -/
theorem receive_ended (hseek : strncmpEq (recvInto s.buf r.chunk) seekPrefix 19 = false)
    (hk : KreallocOk s.dev (chunkCall s r)) {line : List UInt8}
    (hend : EndsLine (line ++ (chunkCall s r).data) (chunkCall s r).stray) :
    (receive s r).phase ≠ .receiving := by
  have hret : (aesdWrite s.dev s.fpos (recvCall (recvInto s.buf r.chunk) r)).retval =
      (chunkCall s r).copied := write_retval_of_ok hk s.fpos
  rw [(receive_wrote hseek).phase_eq, hret]
  by_cases hfull : (chunkCall s r).copied = r.chunk.rcvd
  · have hends : r.chunk.endsPacket = true := by
      rw [chunkCall_whole hfull, endsLine_iff_of_ne_nil (by simp [r.chunk.ne_nil]),
        List.getLast?_append_of_ne_nil _ r.chunk.ne_nil] at hend
      exact Chunk.endsPacket_eq_true.mpr hend
    rw [if_pos (congrArg Nat.cast hfull), if_pos hends]
    decide
  · rw [if_neg (by omega)]
    decide

/-- A write that gets no memory ends the process. -/
theorem receive_refused (hseek : strncmpEq (recvInto s.buf r.chunk) seekPrefix 19 = false)
    (hwf : DeviceWf s.dev) (hk : ¬KreallocOk s.dev (chunkCall s r)) :
    (receive s r).phase = .exited := by
  have href := write_refused hwf hk s.fpos
  have hret : (aesdWrite s.dev s.fpos (recvCall (recvInto s.buf r.chunk) r)).retval = -ENOMEM :=
    href.retval_eq
  have hneg : (-ENOMEM : ℤ) < 0 := by decide
  have hne : (-ENOMEM : ℤ) ≠ r.chunk.rcvd := by omega
  rw [(receive_wrote hseek).phase_eq, hret, if_neg hne]

end Write

/-- A newline behind an unfinished line is one that has just been written. -/
theorem data_ends {dev : DriverState} (h : OpenEnded dev) (hne : dev.pendingBytes ≠ [])
    {data : List UInt8} {stray : UInt8} (hend : EndsLine (dev.pendingBytes ++ data) stray) :
    data.getLast? = some newline := by
  rw [endsLine_iff_of_ne_nil (List.append_ne_nil_of_left_ne_nil hne _)] at hend
  by_cases hnil : data = []
  · rw [hnil, List.append_nil] at hend
    exact absurd hend h.unfinished
  · rwa [List.getLast?_append_of_ne_nil _ hnil] at hend

structure Tracing (k : ℕ) (t : Traced) : Prop where
  openEnded : OpenEnded t.session.dev
  spelled : spell t.pieces = t.session.dev.pendingBytes
  numbered : ∀ piece ∈ t.pieces, piece.session ≤ k

/-- What one turn of the loop does to the pieces. -/
inductive TraceCase (k : ℕ) (t : Traced) (r : Recv) (t' : Traced) : Option Packet → Prop
  | kept (own : List Piece) (tracing : Tracing k t') (pieces_eq : t'.pieces = t.pieces ++ own)
      (own_session : ∀ piece ∈ own, piece.session = k) (stays : ¬Completes t.session r) :
      TraceCase k t r t' none
  | failed (exited : t'.session.phase = .exited) (pieces_eq : t'.pieces = t.pieces)
      (stays : ¬Completes t.session r) : TraceCase k t r t' none
  | handedOver (packet : Packet) (tracing : Tracing k t') (pieces_eq : t'.pieces = [])
      (ended : t'.session.phase ≠ .receiving) (spelled : packet.entry = spell packet.pieces)
      (packet_eq : packet.pieces = t.pieces ++ [⟨k, (chunkCall t.session r).data⟩])
      (completes : spell t.pieces ≠ [] → Completes t.session r) :
      TraceCase k t r t' (some packet)

section Turn

variable {k : ℕ} {t : Traced} {r : Recv} (ht : Tracing k t)

include ht

theorem traceStep_seek (hseek : strncmpEq (recvInto t.session.buf r.chunk) seekPrefix 19 = true) :
    TraceCase k t r (traceStep k t r).1 (traceStep k t r).2 := by
  have hdev : (receive t.session r).dev = t.session.dev := receive_seek ((seekTest_iff _).mp hseek)
  have hstep : traceStep k t r = (⟨receive t.session r, t.pieces⟩, none) := by
    simp only [traceStep, chunkAction, hseek, if_true]
  rw [hstep]
  refine TraceCase.kept [] ⟨?_, ?_, ht.numbered⟩ (List.append_nil _).symm ?_ ?_
  · rw [hdev]
    exact ht.openEnded
  · rw [hdev]
    exact ht.spelled
  · intro piece hp
    exact absurd hp List.not_mem_nil
  · intro hc
    rw [hc.not_seek] at hseek
    cases hseek

/-- A write that gets its memory extends the line by a piece, and may hand it over. -/
theorem traceStep_write (hphase : t.session.phase = .receiving)
    (hseek : strncmpEq (recvInto t.session.buf r.chunk) seekPrefix 19 = false)
    (hk : KreallocOk t.session.dev (chunkCall t.session r)) :
    TraceCase k t r (traceStep k t r).1 (traceStep k t r).2 := by
  have hopen := ht.openEnded
  have hdev : (receive t.session r).dev =
      (aesdWrite t.session.dev t.session.fpos (chunkCall t.session r)).state :=
    (receive_wrote hseek).dev_eq
  have hwrite : OpenEnded (writer.step t.session.dev (t.session.fpos, chunkCall t.session r)).1 :=
    hopen.write hk
  have hopen' : OpenEnded (receive t.session r).dev := hdev ▸ hwrite
  have hacc := write_accepted hopen.wf hk (recvCall_something _ t.session.buf r) t.session.fpos
  have hret : ¬(aesdWrite t.session.dev t.session.fpos (chunkCall t.session r)).retval < 0 := by
    rw [hacc.retval_eq]
    omega
  have hspelled : spell (t.pieces ++ [⟨k, (chunkCall t.session r).data⟩]) =
      t.session.dev.pendingBytes ++ (chunkCall t.session r).data := by
    rw [spell_append, spell_singleton, ht.spelled]
  have hout := hacc.outcome
  rw [hacc.carried_eq hopen.intact] at hout
  -- either the line stays open or it becomes a packet
  rcases hout with ⟨hnot, hkept⟩ | ⟨hend, hover⟩
  · have hstep : traceStep k t r =
        (⟨receive t.session r, t.pieces ++ [⟨k, (chunkCall t.session r).data⟩]⟩, none) := by
      simp only [traceStep, chunkAction, hseek, Bool.false_eq_true, if_false, hkept.committed_eq,
        if_neg hret]
    rw [hstep]
    refine TraceCase.kept [⟨k, (chunkCall t.session r).data⟩] ⟨hopen', ?_, ?_⟩ rfl ?_ ?_
    · rw [hspelled, hdev, hkept.pendingBytes_eq]
    · -- the new piece has the number of this session
      intro piece hmem
      rcases List.mem_append.mp hmem with hp | hp
      · exact ht.numbered piece hp
      · rw [List.mem_singleton.mp hp]
    · intro piece hp
      rw [List.mem_singleton.mp hp]
    · intro hc
      apply hnot
      rw [EndsLine, List.getLast?_append_of_ne_nil _ hc.data_ne_nil, hc.ends]
      rfl
  · have hstep : traceStep k t r =
        (⟨receive t.session r, []⟩,
          some ⟨t.session.dev.pendingBytes ++ (chunkCall t.session r).data,
            t.pieces ++ [⟨k, (chunkCall t.session r).data⟩]⟩) := by
      simp only [traceStep, chunkAction, hseek, Bool.false_eq_true, if_false, hover.committed_eq,
        if_neg hret]
    rw [hstep]
    refine TraceCase.handedOver _ ⟨hopen', ?_, ?_⟩ rfl (receive_ended hseek hk hend)
      hspelled.symm rfl ?_
    · rw [hdev, pendingBytes_of_reset hover.working_eq]
      exact spell_nil
    · intro piece hp
      exact absurd hp List.not_mem_nil
    -- a packet of several pieces is completed by a chunk of data
    · intro hne
      rw [ht.spelled] at hne
      exact ⟨hphase, hseek, hk, data_ends hopen hne hend⟩

theorem traceStep_refused (hseek : strncmpEq (recvInto t.session.buf r.chunk) seekPrefix 19 = false)
    (hk : ¬KreallocOk t.session.dev (chunkCall t.session r)) :
    TraceCase k t r (traceStep k t r).1 (traceStep k t r).2 := by
  have href := write_refused ht.openEnded.wf hk t.session.fpos
  have hneg : (-ENOMEM : ℤ) < 0 := by decide
  have hstep : traceStep k t r = (⟨receive t.session r, t.pieces⟩, none) := by
    simp only [traceStep, chunkAction, hseek, Bool.false_eq_true, if_false, href.committed_eq,
      href.retval_eq, if_pos hneg]
  rw [hstep]
  refine TraceCase.failed (receive_refused hseek ht.openEnded.wf hk) rfl ?_
  intro hc
  exact hk hc.krealloc_ok

theorem tracer_cases (hphase : t.session.phase = .receiving) :
    TraceCase k t r ((tracer k).step t r).1 ((tracer k).step t r).2 := by
  simp only [tracer, hphase]
  cases hseek : strncmpEq (recvInto t.session.buf r.chunk) seekPrefix 19 with
  | true => exact traceStep_seek ht hseek
  | false =>
    by_cases hk : KreallocOk t.session.dev (chunkCall t.session r)
    · exact traceStep_write ht hphase hseek hk
    · exact traceStep_refused ht hseek hk

end Turn

/-- The trace is right unless the session has ended in `exit`. -/
def Followed (k : ℕ) (t : Traced) : Prop := t.session.phase ≠ .exited → Tracing k t

/-- Whatever the unfinished line holds, session `k` itself has written. -/
def Own (k : ℕ) (t : Traced) : Prop := ∀ piece ∈ t.pieces, piece.bytes ≠ [] → piece.session = k

theorem Own.mono {k : ℕ} {t t' : Traced} (h : Own k t')
    (hsub : ∀ piece ∈ t.pieces, piece ∈ t'.pieces) : Own k t :=
  fun piece hmem => h piece (hsub piece hmem)

theorem oneSession_none : ∀ packet ∈ (none : Option Packet), packet.OneSession := by
  intro packet h
  cases h

theorem tracer_idle {k : ℕ} {t : Traced} (h : t.session.phase ≠ .receiving) (r : Recv) :
    (tracer k).step t r = (t, none) := by
  cases hphase : t.session.phase with
  | receiving => exact absurd hphase h
  | replying | exited => simp only [tracer, hphase]

/-- An entry that has a piece of another session and ends with one of session `k`. -/
theorem mixed_packet {k : ℕ} {packet : Packet} {ps : List Piece} {bytes : List UInt8}
    (hpacket : packet.pieces = ps ++ [⟨k, bytes⟩]) (hbytes : bytes ≠ []) {piece : Piece}
    (hmem : piece ∈ ps) (hne : piece.bytes ≠ []) (hother : piece.session ≠ k) :
    ¬packet.OneSession := by
  intro hone
  obtain ⟨j, hj⟩ := hone.single
  rw [hpacket] at hj
  have hfirst : piece.session = j := hj piece (List.mem_append_left _ hmem) hne
  have hlast : k = j :=
    hj ⟨k, bytes⟩ (List.mem_append_right _ (List.mem_singleton_self _)) hbytes
  exact hother (hfirst.trans hlast.symm)

section Session

variable {k : ℕ} {t : Traced} (ht : Followed k t)

include ht

theorem Followed.step (r : Recv) : Followed k ((tracer k).step t r).1 := by
  by_cases hphase : t.session.phase = .receiving
  · have hc := tracer_cases (r := r) (ht (by rw [hphase]; decide)) hphase
    intro hup
    generalize (tracer k).step t r = out at hc hup ⊢
    obtain ⟨t', o⟩ := out
    cases hc with
    | kept own tracing => exact tracing
    | failed exited => exact absurd exited hup
    | handedOver packet tracing => exact tracing
  · rw [tracer_idle hphase]
    exact ht

theorem Followed.final (rs : List Recv) : Followed k ((tracer k).final t rs) := by
  apply ((tracer k).guarded_true t rs).invariant (Followed k) _ ht
  intro t r ht _
  exact ht.step r

/-- On a line of its own a session keeps to itself, and what it commits is its own. -/
theorem Own.step (hown : Own k t) (r : Recv) :
    Own k ((tracer k).step t r).1 ∧ ∀ packet ∈ ((tracer k).step t r).2, packet.OneSession := by
  by_cases hphase : t.session.phase = .receiving
  · have hc := tracer_cases (r := r) (ht (by rw [hphase]; decide)) hphase
    generalize (tracer k).step t r = out at hc ⊢
    obtain ⟨t', o⟩ := out
    cases hc with
    | kept own _ pieces_eq own_session =>
      refine ⟨fun piece hmem hne => ?_, oneSession_none⟩
      change piece ∈ t'.pieces at hmem
      rw [pieces_eq] at hmem
      rcases List.mem_append.mp hmem with hp | hp
      · exact hown piece hp hne
      · exact own_session piece hp
    | failed _ pieces_eq =>
      refine ⟨hown.mono fun piece hmem => ?_, oneSession_none⟩
      rw [← pieces_eq]
      exact hmem
    | handedOver packet _ pieces_eq _ spelled packet_eq =>
      constructor
      · intro piece hmem
        change piece ∈ t'.pieces at hmem
        rw [pieces_eq] at hmem
        exact absurd hmem List.not_mem_nil
      · intro packet' hp
        obtain rfl : packet = packet' := Option.some.inj hp
        refine ⟨spelled, k, fun piece hmem hne => ?_⟩
        rw [packet_eq] at hmem
        rcases List.mem_append.mp hmem with hp | hp
        · exact hown piece hp hne
        · rw [List.mem_singleton.mp hp]
  · rw [tracer_idle hphase]
    exact ⟨hown, oneSession_none⟩

theorem own_packets (hown : Own k t) (rs : List Recv) :
    ∀ o ∈ (tracer k).outputs t rs, ∀ packet ∈ o, packet.OneSession := by
  have hiff : (tracer k).Guarded (fun _ _ => True) t rs ↔
      ∀ o ∈ (tracer k).outputs t rs, ∀ packet ∈ o, packet.OneSession := by
    apply ((tracer k).guarded_true t rs).iff_outputs fun t => Followed k t ∧ Own k t
    · rintro t r ⟨ht, hown⟩ _
      exact ⟨ht.step r, (hown.step ht r).1⟩
    · rintro t r ⟨ht, hown⟩ _
      exact iff_of_true trivial (hown.step ht r).2
    · exact ⟨ht, hown⟩
  exact hiff.mp ((tracer k).guarded_true t rs)

/-- A line that another session has begun is still so begun after a turn that leaves
it open, and a turn that completes it mixes the two. -/
theorem foreign_step (hother : t.session.phase = .receiving → ¬Own k t) (r : Recv) :
    (((tracer k).step t r).1.session.phase = .receiving → ¬Own k ((tracer k).step t r).1) ∧
      (¬Completes t.session r ↔ ∀ packet ∈ ((tracer k).step t r).2, packet.OneSession) := by
  by_cases hphase : t.session.phase = .receiving
  · have hother := hother hphase
    have hc := tracer_cases (r := r) (ht (by rw [hphase]; decide)) hphase
    generalize (tracer k).step t r = out at hc ⊢
    obtain ⟨t', o⟩ := out
    cases hc with
    | kept own _ pieces_eq _ stays =>
      refine ⟨fun _ hown => hother (hown.mono fun piece hmem => ?_), iff_of_true stays oneSession_none⟩
      change piece ∈ t'.pieces
      rw [pieces_eq]
      exact List.mem_append_left _ hmem
    | failed _ pieces_eq stays =>
      refine ⟨fun _ hown => hother (hown.mono fun piece hmem => ?_), iff_of_true stays oneSession_none⟩
      change piece ∈ t'.pieces
      rw [pieces_eq]
      exact hmem
    | handedOver packet _ _ ended _ packet_eq completes =>
      refine ⟨fun hrec => absurd hrec ended, ?_⟩
      unfold Own at hother
      push Not at hother
      obtain ⟨piece, hmem, hne, hsession⟩ := hother
      have hcompletes : Completes t.session r := by
        apply completes
        intro hnil
        exact hne (spell_eq_nil.mp hnil piece hmem)
      apply iff_of_false (not_not.mpr hcompletes)
      intro hall
      -- the newline is a byte of this session, and the piece is not
      exact mixed_packet packet_eq hcompletes.data_ne_nil hmem hne hsession (hall packet rfl)
  · rw [tracer_idle hphase]
    refine ⟨hother, iff_of_true ?_ oneSession_none⟩
    intro hc
    exact hphase hc.receiving

/-- What a session commits is its own exactly when it begins the line itself or
does not complete it. -/
theorem session_packets_iff (rs : List Recv) :
    (∀ o ∈ (tracer k).outputs t rs, ∀ packet ∈ o, packet.OneSession) ↔
      Own k t ∨ receiver.Guarded (fun s r => ¬Completes s r) t.session rs := by
  by_cases hown : Own k t
  · exact iff_of_true (own_packets ht hown rs) (Or.inl hown)
  · rw [or_iff_right hown, ← Machine.guarded_project (tracer_session k) (fun s r => ¬Completes s r)]
    symm
    apply ((tracer k).guarded_true t rs).iff_outputs fun t =>
      Followed k t ∧ (t.session.phase = .receiving → ¬Own k t)
    · rintro t r ⟨ht, hother⟩ _
      exact ⟨ht.step r, (foreign_step ht hother r).1⟩
    · rintro t r ⟨ht, hother⟩ _
      exact (foreign_step ht hother r).2
    · exact ⟨ht, fun _ => hown⟩

end Session

/-- The log between two sessions, as long as the process is there. -/
structure LogInv (p : PacketLog) : Prop where
  openEnded : OpenEnded p.dev
  spelled : spell p.pieces = p.dev.pendingBytes
  numbered : ∀ piece ∈ p.pieces, piece.session < p.sessions

section Log

variable {p : PacketLog} (h : LogInv p) (c : Client)

include h

theorem LogInv.followed : Followed p.sessions (p.start c) := by
  intro _
  exact ⟨h.openEnded, h.spelled, fun piece hmem => (h.numbered piece hmem).le⟩

/-- No session has written to the line before, or it is not this one. -/
theorem LogInv.own_iff : Own p.sessions (p.start c) ↔ p.dev.working.size = 0 := by
  rw [size_of_intact h.openEnded.wf h.openEnded.intact, List.length_eq_zero_iff, ← h.spelled,
    spell_eq_nil]
  constructor
  · intro hown piece hmem
    by_contra hne
    have hlt := h.numbered piece hmem
    rw [hown piece hmem hne] at hlt
    exact lt_irrefl _ hlt
  · intro hnil piece hmem hne
    exact absurd (hnil piece hmem) hne

theorem LogInv.next {e : SessionEnd} {kernel : FixedSizeLlseek}
    (hserve : sendAndReceive kernel p.dev c = some e) (hup : e.exited = false) :
    LogInv
      { dev := e.dev
        pieces := ((tracer p.sessions).final (p.start c) c.recvs).pieces
        sessions := p.sessions+1
        up := !e.exited } := by
  obtain ⟨hsame, hexit⟩ := sendAndReceive_end hserve
  have hsession : ((tracer p.sessions).final (p.start c) c.recvs).session = c.received p.dev :=
    Machine.final_project (tracer_session p.sessions) (p.start c) c.recvs
  have ht : Tracing p.sessions ((tracer p.sessions).final (p.start c) c.recvs) := by
    apply (h.followed c).final c.recvs
    rw [hsession]
    intro hexited
    rw [(hexit hexited).1] at hup
    cases hup
  have hopen := ht.openEnded
  have hspelled := ht.spelled
  rw [hsession] at hopen hspelled
  obtain ⟨n, hn⟩ := hsame.exists_eq
  have hwf : DeviceWf e.dev := by
    rw [hn]
    exact hopen.wf.nextReadPosition n
  have hpending : e.dev.pendingBytes = (c.received p.dev).dev.pendingBytes :=
    congrArg LineStore.Store.pending hsame.lineStore_eq
  refine ⟨⟨hwf, hsame.intact hopen.intact, ?_⟩, ?_, ?_⟩
  · rw [hpending]
    exact hopen.unfinished
  · rw [hspelled, hpending]
  · intro piece hmem
    exact Nat.lt_succ_of_le (ht.numbered piece hmem)

end Log

theorem packetServer_inv {kernel : FixedSizeLlseek} {p : PacketLog} (h : p.up = true → LogInv p)
    (c : Client) :
    ((packetServer kernel).step p c).1.up = true → LogInv ((packetServer kernel).step p c).1 := by
  intro hup
  cases hp : p.up with
  | false =>
    simp only [packetServer, hp, Bool.false_eq_true, if_false] at hup
  | true =>
    cases hserve : sendAndReceive kernel p.dev c with
    | none => simp [packetServer, hp, hserve] at hup
    | some e =>
      simp only [packetServer, hp, hserve, if_true, Bool.not_eq_true'] at hup ⊢
      exact (h hp).next c hserve hup

theorem packetServer_packets {kernel : FixedSizeLlseek} {p : PacketLog} (h : p.up = true → LogInv p)
    (c : Client) :
    Isolated p c ↔ ∀ packet ∈ ((packetServer kernel).step p c).2, packet.OneSession := by
  cases hp : p.up with
  | false =>
    have hout : ((packetServer kernel).step p c).2 = [] := by
      simp only [packetServer, hp, Bool.false_eq_true, if_false]
    rw [hout]
    apply iff_of_true
    · intro hup
      rw [hp] at hup
      cases hup
    · intro packet hmem
      exact absurd hmem List.not_mem_nil
  | true =>
    have hout : ((packetServer kernel).step p c).2 =
        ((tracer p.sessions).outputs (p.start c) c.recvs).reduceOption := by
      simp only [packetServer, hp, if_true]
      cases sendAndReceive kernel p.dev c <;> rfl
    have hsession := session_packets_iff ((h hp).followed c) c.recvs
    rw [(h hp).own_iff c] at hsession
    rw [hout, Isolated]
    constructor
    · intro hiso packet hmem
      rw [List.reduceOption_mem_iff] at hmem
      exact hsession.mpr (hiso hp) _ hmem packet rfl
    · intro hall _
      apply hsession.mp
      intro o ho packet hpacket
      apply hall
      rw [List.reduceOption_mem_iff, ← Option.mem_def.mp hpacket]
      exact ho

/-- Over all runs on a fresh device, every committed entry comes from one session
exactly when no session completes a line that an earlier one has left unfinished. -/
theorem packets_from_one_session_iff (kernel : FixedSizeLlseek) (clients : List Client) :
    (∀ packets ∈ (packetServer kernel).outputs packetLogInit clients,
      ∀ packet ∈ packets, packet.OneSession) ↔
      (packetServer kernel).Guarded Isolated packetLogInit clients := by
  symm
  apply ((packetServer kernel).guarded_true packetLogInit clients).iff_outputs
    fun p => p.up = true → LogInv p
  · intro p c h _
    exact packetServer_inv h c
  · intro p c h _
    exact packetServer_packets h c
  · intro _
    exact ⟨openEnded_init, rfl, fun piece hmem => absurd hmem List.not_mem_nil⟩

/-- The first client sends a byte and closes, and the second one sends a line. -/
theorem closed_session_mixes :
    let clients :=
      [plainClient [plainRecv [35] (by decide) (by decide)],
        plainClient [plainRecv [36, 10] (by decide) (by decide)]]
    let packet : Packet := ⟨[35, 36, 10], [⟨0, [35]⟩, ⟨1, [36, 10]⟩]⟩
    (packetServer boundedLlseek).outputs packetLogInit clients = [[], [packet]] ∧
      ¬packet.OneSession := by
  refine ⟨by decide +kernel, fun hone => ?_⟩
  obtain ⟨k, hk⟩ := hone.single
  have hzero : 0 = k := hk ⟨0, [35]⟩ (by decide) (by decide)
  have hsecond : 1 = k := hk ⟨1, [36, 10]⟩ (by decide) (by decide)
  omega

end ProvenAesd.Server
