import ProvenAesd.SocketReceive

/-! Sessions that send one line each: the reply loop sends back what the device
holds, and that is the last ten lines. -/
namespace ProvenAesd.Server
open BlockHeap BoundedQueue ConcatOffset Mealy Driver Driver.DriverState

section ReplyLoop

def ReplyEnv.Sends (env : ReplyEnv) : Prop := ∀ i data, env.send i data ≠ none

/-- No read faults, and every `send` takes all it is given. -/
structure ReplyEnv.Clean (env : ReplyEnv) : Prop where
  no_fault : ∀ i, env.copyFault i = false
  complete : ∀ i data, env.send i data = some data.length

theorem ReplyEnv.Clean.sends {env : ReplyEnv} (h : env.Clean) : env.Sends := by
  intro i data
  rw [h.complete]
  exact Option.some_ne_none _

theorem replyLoop_sameStore {env : ReplyEnv} {fuel : ℕ} :
    ∀ {i dev fpos e}, replyLoop env fuel i dev fpos = some e → SameStore dev e.dev := by
  induction fuel with
  | zero =>
    intro i dev fpos e h
    cases h
  | succ fuel ih =>
    intro i dev fpos e h
    have hread := read_sameStore dev fpos ⟨bufSize, env.copyFault i⟩
    simp only [replyLoop] at h
    split at h
    · split at h
      · cases h
        exact hread
      · obtain ⟨e', he', rfl⟩ := Option.map_eq_some_iff.mp h
        have hrest : SameStore (aesdRead dev fpos ⟨bufSize, env.copyFault i⟩).state e'.dev := ih he'
        exact hread.trans hrest
    · cases h
      exact hread

/-- The reply loop ends within its fuel, and only a failed `send` ends it with `exit`.
A clean one sends all stored bytes from its position on. -/
theorem replyLoop_ends {env : ReplyEnv} (hs : env.Sends) (fuel : ℕ) :
    ∀ i dev fpos, DeviceWf dev → fpos+1 < 2^64 → dev.liveBytes.flatten.length-fpos < fuel →
      ∃ sent dev', replyLoop env fuel i dev fpos = some ⟨false, sent, dev'⟩ ∧ DeviceWf dev' ∧
        (env.Clean → sent = dev.liveBytes.flatten.drop fpos) := by
  induction fuel with
  | zero =>
    intro _ _ _ _ _ hfuel
    omega
  | succ fuel ih =>
    intro i dev fpos hwf hp hfuel
    have hwf' := read_wf hwf fpos ⟨bufSize, env.copyFault i⟩
    simp only [replyLoop]
    rcases read_cases hwf hp ⟨bufSize, env.copyFault i⟩ with he | hf | hd
    -- the read returns 0 at the end, and an error where it faults
    · rw [he.retval_eq, if_neg (by decide)]
      refine ⟨_, _, rfl, hwf', fun _ => ?_⟩
      exact (List.drop_eq_nil_of_le he.at_end).symm
    · rw [hf.retval_eq, if_neg (by decide)]
      refine ⟨_, _, rfl, hwf', fun hc => ?_⟩
      have hfault := hf.fault
      rw [hc.no_fault] at hfault
      cases hfault
    · -- a byte at least has been read, so that less fuel will do for the rest
      have htotal := hwf.total_lt
      have hbefore := hd.before_end
      have hfpos := hd.fpos_eq
      have hlive := read_liveBytes dev fpos ⟨bufSize, env.copyFault i⟩
      have hpos := pieceAt_length_pos hbefore (by decide : 0 < bufSize)
      have hsegment := pieceAt_segment dev.liveBytes fpos bufSize
      rw [← hd.data_eq] at hpos hsegment
      have hfits := hsegment.length_le
      rw [List.length_drop] at hfits
      have hgt : (aesdRead dev fpos ⟨bufSize, env.copyFault i⟩).retval > 0 := by
        rw [hd.retval_eq]
        omega
      obtain ⟨n, hsend⟩ := Option.ne_none_iff_exists'.mp
        (hs i (aesdRead dev fpos ⟨bufSize, env.copyFault i⟩).data)
      obtain ⟨sent, dev', hloop, hwf'', hsent⟩ :=
        ih (i+1) _ (aesdRead dev fpos ⟨bufSize, env.copyFault i⟩).fpos hwf' (by omega)
          (by rw [hlive]; omega)
      rw [if_pos hgt, hsend]
      simp only [hloop, Option.map_some]
      refine ⟨_, _, rfl, hwf'', fun hc => ?_⟩
      rw [hc.complete, Option.some.injEq] at hsend
      rw [hsent hc, ← hsend, List.take_length, hlive, hfpos, ← List.drop_drop]
      exact (List.prefix_iff_eq_append.mp hsegment)

/-- The reply loop ends within its fuel and sends all stored bytes from its
position on. -/
theorem replyLoop_clean {env : ReplyEnv} (hc : env.Clean) (fuel : ℕ) :
    ∀ i dev fpos, DeviceWf dev → fpos < 2^63 → dev.liveBytes.flatten.length-fpos < fuel →
      ∃ dev', replyLoop env fuel i dev fpos =
          some ⟨false, dev.liveBytes.flatten.drop fpos, dev'⟩ ∧ DeviceWf dev' ∧ SameStore dev dev' := by
  intro i dev fpos hwf hp hfuel
  obtain ⟨sent, dev', hloop, hwf', hsent⟩ :=
    replyLoop_ends hc.sends fuel i dev fpos hwf (by omega) hfuel
  rw [hsent hc] at hloop
  exact ⟨dev', hloop, hwf', replyLoop_sameStore hloop⟩

end ReplyLoop

theorem llseek_rewind (kernel : FixedSizeLlseek) (dev : DriverState) (fpos : ℕ) :
    (aesdLlseek kernel dev fpos 0 .seekSet).fpos = 0 := by
  have hseek := kernel.accepts fpos 0 .seekSet dev.buffer.bufLen (Or.inl rfl) le_rfl (by simp [Whence.target])
  simp only [aesdLlseek, hseek]
  rfl

/-- A session without a seek replies with everything stored after its writes. -/
theorem sendAndReceive_of_received (kernel : FixedSizeLlseek) {dev : DriverState} {c : Client}
    (hc : c.env.Clean) (hwf : DeviceWf (c.received dev).dev)
    (hio : (c.received dev).isIoctl = false) (hphase : (c.received dev).phase ≠ .exited) :
    ∃ dev', sendAndReceive kernel dev c = some ⟨false, dev'.liveBytes.flatten, dev'⟩ ∧ DeviceWf dev' ∧
      SameStore (c.received dev).dev dev' := by
  generalize hs : c.received dev = s at *
  obtain ⟨dev', hloop, hwf', hsame⟩ :=
    replyLoop_clean hc (replyFuel s.dev) 0 s.dev 0 hwf (by decide) (by unfold replyFuel; omega)
  have hlive : dev'.liveBytes = s.dev.liveBytes := congrArg LineStore.Store.lines hsame.lineStore_eq
  refine ⟨dev', ?_, hwf', hsame⟩
  rw [List.drop_zero, ← hlive] at hloop
  rw [sendAndReceive, hs]
  cases hp : s.phase with
  | exited => exact absurd hp hphase
  | receiving | replying =>
    simp only [hio, Bool.false_eq_true, if_false, llseek_rewind]
    exact hloop

/-- A session without a seek command stores what it handles of its stream as one
write, and replies with what is stored then. -/
theorem sendAndReceive_data (kernel : FixedSizeLlseek) {dev : DriverState} {c : Client} {r : Recv}
    {rs : List Recv} (hwf : DeviceWf dev) (hc : c.env.Clean) (hrecvs : c.recvs = r :: rs)
    (hg : receiver.Guarded RecvSafe (Session.start dev c.buf c.seekto) c.recvs) :
    ∃ dev', sendAndReceive kernel dev c = some ⟨false, dev'.liveBytes.flatten, dev'⟩ ∧ DeviceWf dev' ∧
      dev'.Intact ∧
      lineStore dev' = (LineStore.write newline 10
        ⟨dev.liveBytes, carriedInto (Session.start dev c.buf c.seekto) r⟩
        (recvBytes (packetRecvs c.recvs))).1 := by
  have hrun := receive_run rs r (Session.start dev c.buf c.seekto) rfl hwf (hrecvs ▸ hg)
  rw [← hrecvs] at hrun
  obtain ⟨hwf', hint', hstore, hio, hphase⟩ := hrun
  obtain ⟨dev', hserve, hwf'', hsame⟩ := sendAndReceive_of_received kernel hc hwf' hio hphase
  exact ⟨dev', hserve, hwf'', hsame.intact hint', hsame.lineStore_eq.trans hstore⟩

/-- A session whose stream has a newline at most at its end, on a device without
a lost buffer. -/
theorem sendAndReceive_stream (kernel : FixedSizeLlseek) {dev : DriverState} {c : Client}
    (hwf : DeviceWf dev) (hint : dev.Intact) (hc : c.env.Clean) (hne : c.recvs ≠ [])
    (hg : receiver.Guarded RecvSafe (Session.start dev c.buf c.seekto) c.recvs)
    (hnl : newline ∉ c.stream.dropLast) :
    ∃ dev', sendAndReceive kernel dev c = some ⟨false, dev'.liveBytes.flatten, dev'⟩ ∧ DeviceWf dev' ∧
      dev'.Intact ∧ lineStore dev' = (LineStore.write newline 10 (lineStore dev) c.stream).1 := by
  obtain ⟨r, rs, hrecvs⟩ := List.exists_cons_of_ne_nil hne
  obtain ⟨dev', hserve, hwf', hint', hstore⟩ := sendAndReceive_data kernel hwf hc hrecvs hg
  have hok : RecvOk (Session.start dev c.buf c.seekto) r := by
    rw [hrecvs] at hg
    exact hg.1 rfl
  have hcarried : carriedInto (Session.start dev c.buf c.seekto) r = dev.pendingBytes :=
    carriedInto_of_intact hwf hint hok
  rw [hcarried, packetRecvs_eq hnl] at hstore
  exact ⟨dev', hserve, hwf', hint', hstore⟩

/-- Clients one after another, in the order in which they get the mutex. -/
def serving (kernel : FixedSizeLlseek) : Machine DriverState Client (Option SessionEnd) where
  step dev c :=
    let e := sendAndReceive kernel dev c
    ((e.map SessionEnd.dev).getD dev, e)

/-- The client sends one line, and nothing fails on the way. -/
structure LineServed (dev : DriverState) (c : Client) : Prop where
  line : ∃ body, newline ∉ body ∧ c.stream = body ++ [newline]
  calls : receiver.Guarded RecvOk (Session.start dev c.buf c.seekto) c.recvs
  env : c.env.Clean

theorem lineStore_write_line {st : LineStore.Store UInt8} (hp : st.pending = []) {line : List UInt8}
    (hline : line.getLast? = some newline) :
    (LineStore.write newline 10 st line).1 = ⟨(push 10 st.lines line).1, []⟩ := by
  have hlast : (st.pending ++ line).getLast? = some newline := by rw [hp, List.nil_append, hline]
  rw [LineStore.write_of_last hlast, hp, List.nil_append]

def recentLines (lines : List (List UInt8)) : List (List UInt8) := lines.drop (lines.length-10)

theorem recentLines_concat (lines : List (List UInt8)) (line : List UInt8) :
    (push 10 (recentLines lines) line).1 = recentLines (lines ++ [line]) := by
  have hten : 0 < 10 := by decide
  rw [recentLines, recentLines, ← queue_final 10 hten, ← queue_final 10 hten, Machine.final_append]
  rfl

/-- The device and the replies after any number of lines. -/
structure Served (dev : DriverState) (lines : List (List UInt8)) (ends : List (Option SessionEnd)) :
    Prop where
  wf : DeviceWf dev
  intact : dev.Intact
  pending : dev.pendingBytes = []
  live : dev.liveBytes = recentLines lines
  replies : ∀ i < lines.length, ∃ e, ends[i]? = some (some e) ∧ e.exited = false ∧
    e.sent = (recentLines (lines.take (i+1))).flatten

theorem Served.concat {kernel : FixedSizeLlseek} {dev : DriverState} {lines : List (List UInt8)}
    {ends : List (Option SessionEnd)} (h : Served dev lines ends)
    (hlen : ends.length = lines.length) {c : Client} (hc : LineServed dev c) :
    Served ((serving kernel).step dev c).1 (lines ++ [c.stream])
      (ends ++ [((serving kernel).step dev c).2]) := by
  obtain ⟨body, hbody, hstream⟩ := hc.line
  have hne : c.recvs ≠ [] := by
    intro hnil
    rw [Client.stream, hnil] at hstream
    simp at hstream
  have hnl : newline ∉ c.stream.dropLast := by
    rw [hstream, List.dropLast_concat]
    exact hbody
  have hlast : c.stream.getLast? = some newline := by rw [hstream, List.getLast?_concat]
  have hcalls : receiver.Guarded RecvSafe (Session.start dev c.buf c.seekto) c.recvs :=
    hc.calls.mono fun _ _ hok _ => hok
  obtain ⟨dev', hserve, hwf, hint, hstore⟩ :=
    sendAndReceive_stream kernel h.wf h.intact hc.env hne hcalls hnl
  rw [lineStore_write_line h.pending hlast] at hstore
  have hlive : dev'.liveBytes = recentLines (lines ++ [c.stream]) := by
    rw [← recentLines_concat, ← h.live]
    exact congrArg LineStore.Store.lines hstore
  simp only [serving, hserve, Option.map_some, Option.getD_some]
  refine ⟨hwf, hint, congrArg LineStore.Store.pending hstore, hlive, ?_⟩
  intro i hi
  by_cases hlt : i < lines.length
  · obtain ⟨e, he, hex, hsent⟩ := h.replies i hlt
    refine ⟨e, ?_, hex, ?_⟩
    · rw [List.getElem?_append_left (by omega), he]
    · rw [hsent, List.take_append_of_le_length (by omega)]
  · -- the reply to this client
    have hi' : i = lines.length := by simp only [List.length_append, List.length_singleton] at hi; omega
    refine ⟨⟨false, dev'.liveBytes.flatten, dev'⟩, ?_, rfl, ?_⟩
    · rw [hi', ← hlen, List.getElem?_concat_length]
    · rw [hlive, List.take_of_length_le (by simp; omega)]

/-- Every client gets the last ten lines back, its own line last, and the device
holds just these lines. -/
theorem replies_are_recent_lines (kernel : FixedSizeLlseek) (clients : List Client)
    (h : (serving kernel).Guarded LineServed aesdInitModule clients) :
    let lines := clients.map Client.stream
    let dev := (serving kernel).final aesdInitModule clients
    let ends := (serving kernel).outputs aesdInitModule clients
    (∀ i < clients.length, ∃ e, ends[i]? = some (some e) ∧ e.exited = false ∧
      e.sent = ((lines.take (i+1)).drop (i+1-10)).flatten) ∧
    dev.liveBytes = lines.drop (lines.length-10) ∧ dev.pendingBytes = [] := by
  have hrun : Served ((serving kernel).final aesdInitModule clients) (clients.map Client.stream)
      ((serving kernel).outputs aesdInitModule clients) ∧
      ((serving kernel).outputs aesdInitModule clients).length = clients.length := by
    apply h.history fun dev cs ends => Served dev (cs.map Client.stream) ends ∧ ends.length = cs.length
    · exact ⟨⟨deviceWf_init, intact_init, rfl, rfl, fun _ hi => absurd hi (Nat.not_lt_zero _)⟩, rfl⟩
    · rintro dev cs ends c ⟨hs, hlen⟩ hc
      rw [List.map_append]
      refine ⟨hs.concat (by rw [hlen, List.length_map]) hc, ?_⟩
      rw [List.length_append, List.length_append, hlen]
      rfl
  intro lines dev ends
  obtain ⟨hserved, -⟩ := hrun
  refine ⟨fun i hi => ?_, hserved.live, hserved.pending⟩
  obtain ⟨e, he, hex, hsent⟩ := hserved.replies i (by rwa [List.length_map])
  refine ⟨e, he, hex, ?_⟩
  have hlen : (lines.take (i+1)).length = i+1 := by
    rw [List.length_take, List.length_map]
    omega
  rw [hsent, recentLines, hlen]

/-- A kernel that moves to the targets it accepts. -/
def boundedLlseek : FixedSizeLlseek where
  seek fpos off whence size :=
    let target := whence.target fpos off size
    if 0 ≤ target ∧ target ≤ size then (target, target.toNat) else (-EINVAL, fpos)
  accepts _ _ _ _ _ h0 hsize := if_pos ⟨h0, hsize⟩
  rejects _ _ _ _ _ h := by
    rw [if_neg h]
    have hneg : (-EINVAL : ℤ) < 0 := by decide
    exact ⟨hneg, rfl⟩

def plainRecv (bytes : List UInt8) (hne : bytes ≠ []) (hle : bytes.length ≤ bufSize) : Recv :=
  ⟨⟨bytes, hne, hle⟩, 0, .grant true fun _ => 0, 0⟩

def plainClient (recvs : List Recv) : Client where
  buf := []
  seekto := ⟨0, 0⟩
  recvs := recvs
  env := ⟨fun _ => false, fun _ data => some data.length⟩

/-- "p\n" in two chunks and "q\n" in one. -/
theorem replies_are_recent_lines_two_clients :
    let clients :=
      [plainClient [plainRecv [112] (by decide) (by decide), plainRecv [10] (by decide) (by decide)],
        plainClient [plainRecv [113, 10] (by decide) (by decide)]]
    let dev := (serving boundedLlseek).final aesdInitModule clients
    dev.liveBytes = [[112, 10], [113, 10]] ∧ dev.pendingBytes = [] := by
  intro clients dev
  have hclean (recvs : List Recv) : (plainClient recvs).env.Clean := ⟨fun _ => rfl, fun _ _ => rfl⟩
  have hguard : (serving boundedLlseek).Guarded LineServed aesdInitModule clients := by
    refine ⟨⟨⟨[112], by decide, rfl⟩, ⟨?_, ?_, trivial⟩, hclean _⟩,
      ⟨⟨[113], by decide, rfl⟩, ⟨?_, trivial⟩, hclean _⟩, trivial⟩
    · exact ⟨by decide +kernel, rfl, by decide +kernel⟩
    · exact ⟨by decide +kernel, rfl, by decide +kernel⟩
    · exact ⟨by decide +kernel, rfl, by decide +kernel⟩
  exact (replies_are_recent_lines boundedLlseek clients hguard).2

end ProvenAesd.Server
