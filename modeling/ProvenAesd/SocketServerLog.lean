import ProvenAesd.SocketAcceptOrder
import ProvenAesd.SocketRequests
import ProvenAesd.SocketThreadLines

/-! The whole server, main and its threads, against the log of lines that its clients see. -/
namespace ProvenAesd.Server
open BoundedQueue ConcatOffset LockedSections Mealy Driver Driver.DriverState

/-- Nothing has come between the client of the thread and its answer: the slots it has asked
for exist, and no copy has failed and no `send` come short. -/
structure DeviceThread.Undisturbed (x : DeviceThread) : Prop where
  slots : ∀ action ∈ x.client.actions, action.InSlots
  no_fault : ∀ fault ∈ x.faults, fault = false
  whole : ∀ r ∈ x.sends, r = .whole

def ServerAction.stored : ServerAction → ℕ
  | .data bytes => bytes.length
  | .seek _ => 0

def logSize (l : Log Unit) : ℕ := l.lines.flatten.length+l.pending.length

/-- Neither the log nor the position in it leaves `loff_t` with so many bytes more. -/
def RoomFor (x : LogSession) (bytes : ℕ) : Prop :=
  logSize x.log+bytes < 2^63 ∧ x.log.fpos ()+bytes < 2^63

section Room

variable {x : LogSession} {k : ℕ}

theorem logSize_write (l : Log Unit) (data : List UInt8) :
    logSize (l.write () data).1 = logSize l+data.length := by
  by_cases h : (l.pending ++ data).getLast? = some newline
  · simp only [write_line h, logSize, List.flatten_append, List.length_append, List.flatten_singleton,
      List.length_nil]
    omega
  · simp only [write_open h, logSize, List.length_append]
    omega

theorem logSize_seekTo (l : Log Unit) (seekto : AesdSeekto) :
    logSize (l.seekTo () seekto).1 = logSize l := by
  unfold Log.seekTo
  dsimp only
  split
  · rfl
  · split <;> rfl

theorem fpos_write (l : Log Unit) (data : List UInt8) :
    (l.write () data).1.fpos () = l.fpos ()+data.length := by
  by_cases h : (l.pending ++ data).getLast? = some newline
  · rw [write_line h]
  · rw [write_open h]

/-- A seek leaves the position or moves it into the log. -/
theorem fpos_seekTo (l : Log Unit) (seekto : AesdSeekto) :
    (l.seekTo () seekto).1.fpos () = l.fpos () ∨ (l.seekTo () seekto).1.fpos () ≤ logSize l := by
  unfold Log.seekTo
  dsimp only
  split
  · exact .inl rfl
  next line hline =>
    split_ifs with hlong
    · exact .inl rfl
    · right
      have hplace := place_le_flatten hline (not_lt.mp hlong)
      have hslots := slotOrder_flatten_le 10 l.lines
      simp only [Log.move, Function.update_self, logSize]
      omega

theorem logSize_act (x : LogSession) (action : ServerAction) :
    logSize (x.act action).log ≤ logSize x.log+action.stored := by
  cases hgoes : x.refused with
  | true =>
    rw [act_of_refused hgoes]
    exact Nat.le_add_right ..
  | false =>
    cases action with
    | data bytes =>
      rw [act_data hgoes]
      exact (logSize_write x.log bytes).le
    | seek seekto =>
      rw [act_seek hgoes]
      exact (logSize_seekTo x.log seekto).le

theorem RoomFor.act {action : ServerAction} (h : RoomFor x (action.stored+k)) : RoomFor (x.act action) k := by
  obtain ⟨hsize, hpos⟩ := h
  have hact := logSize_act x action
  refine ⟨by omega, ?_⟩
  cases hgoes : x.refused with
  | true =>
    rw [act_of_refused hgoes]
    omega
  | false =>
    cases action with
    | data bytes =>
      rw [act_data hgoes]
      have hwrite := fpos_write x.log bytes
      change _+(bytes.length+k) < _ at hpos
      change (x.log.write () bytes).1.fpos ()+k < _
      omega
    | seek seekto =>
      rw [act_seek hgoes]
      have hseek := fpos_seekTo x.log seekto
      change (x.log.seekTo () seekto).1.fpos ()+k < _
      omega

theorem logSize_acts (actions : List ServerAction) (x : LogSession) :
    logSize (x.acts actions).log ≤ logSize x.log+(actions.map ServerAction.stored).sum := by
  induction actions generalizing x with
  | nil => exact le_rfl
  | cons action actions ih =>
    have hact := logSize_act x action
    have hrest : logSize ((x.act action).acts actions).log ≤ _ := ih (x.act action)
    rw [List.map_cons, List.sum_cons]
    change logSize ((x.act action).acts actions).log ≤ _
    omega

end Room

section Session

variable {kernel : FixedSizeLlseek} {dev dev' : DriverState} {x : DeviceThread}

/-- A receive loop that is over asks nothing of the chunks that are left. -/
theorem guarded_idle {G : Session → Recv → Prop} {s : Session} (h : s.phase ≠ .receiving)
    (rs : List Recv) : receiver.Guarded (fun s r => s.phase = .receiving → G s r) s rs := by
  induction rs with
  | nil => trivial
  | cons r rs ih =>
    have hstep : (receiver.step s r).1 = s := (receiver_idle h [r]).1
    rw [Machine.guarded_cons, hstep]
    exact ⟨fun hrec => absurd hrec h, ih⟩

theorem chunkAction_stored (buf : List UInt8) (chunk : Chunk) (seekto : AesdSeekto) :
    (chunkAction (recvInto buf chunk) chunk.rcvd seekto).stored ≤ chunk.bytes.length := by
  unfold chunkAction
  split_ifs
  · exact Nat.zero_le _
  · exact List.length_take_le ..

/-- With room for its chunks, a receive loop that does not end in `exit` keeps in step with the
log: what could refuse a chunk would have ended it. -/
theorem receiver_chunks_ok (rs : List Recv) :
    ∀ (s : Session) (x : LogSession), s.phase = .receiving → Follows s x →
      (receiver.final s rs).phase ≠ .exited →
      (∀ action ∈ askedActions s.buf s.seekto (rs.map Recv.chunk),
        action.InSlots) →
      RoomFor x (recvBytes rs).length →
      receiver.Guarded (fun s r => s.phase = .receiving → ChunkOk s r) s rs := by
  induction rs with
  | nil => exact fun _ _ _ _ _ _ _ => trivial
  | cons r rs ih =>
    intro s x hrec hfollows hgo hslots hroom
    have hcalm := (receiver_calm s hgo).1 hrec
    rw [recvBytes_cons, List.length_append] at hroom
    have hpos : s.fpos = x.log.fpos () := congrFun hfollows.refines.fpos_eq ()
    rw [List.map_cons, askedActions, List.forall_mem_cons] at hslots
    -- the turn went on, so its write did not fail; the room keeps its position in `loff_t`
    have hok : ChunkOk s r := by
      refine ⟨fun hseek => ?_, hslots.1⟩
      obtain ⟨hcopied, hkrealloc⟩ := hcalm hseek
      refine ⟨hcopied, hkrealloc, ?_⟩
      have hfits := hroom.2
      rw [hpos, Chunk.rcvd]
      omega
    rw [Machine.guarded_cons, receiver_step hrec]
    rw [Machine.final_cons, receiver_step hrec] at hgo
    refine ⟨fun _ => hok, ?_⟩
    obtain ⟨hbuf, hseekto, hphase⟩ := receive_next s r
    -- an exit here would be the end of the run
    have hstay : (receive s r).phase ≠ .exited := by
      intro hexited
      rw [(receiver_idle (by rw [hexited]; decide) rs).1] at hgo
      exact hgo hexited
    have hphase' := hphase.resolve_left hstay
    cases hend : r.chunk.endsPacket with
    | true =>
      rw [hend] at hphase'
      exact guarded_idle (by rw [hphase']; decide) rs
    | false =>
      rw [hend] at hphase'
      apply ih _ _ hphase' (receive_follows hrec hok hfollows) hgo
      · rw [hbuf, hseekto]
        have hrest := hslots.2
        rw [hend] at hrest
        exact hrest
      · have hstored := chunkAction_stored s.buf r.chunk s.seekto
        obtain ⟨hsize, hfits⟩ := hroom
        exact RoomFor.act ⟨by omega, by omega⟩

/-- The chunks of a client add no more to the log than they hold. -/
theorem askedActions_stored (chunks : List Chunk) :
    ∀ (buf : List UInt8) (seekto : AesdSeekto),
      ((askedActions buf seekto chunks).map ServerAction.stored).sum ≤
        (chunkBytes chunks).length := by
  induction chunks with
  | nil => exact fun _ _ => le_rfl
  | cons chunk chunks ih =>
    intro buf seekto
    have hfirst := chunkAction_stored buf chunk seekto
    have hbytes : (chunkBytes (chunk :: chunks)).length = chunk.bytes.length+(chunkBytes chunks).length := by
      simp [chunkBytes]
    rw [askedActions, List.map_cons, List.sum_cons, hbytes]
    change (chunkAction (recvInto buf chunk) chunk.rcvd seekto).stored+_ ≤ _
    cases chunk.endsPacket with
    | true =>
      rw [if_pos rfl, List.map_nil, List.sum_nil]
      omega
    | false =>
      have hrest := ih (recvInto buf chunk)
        ((chunkAction (recvInto buf chunk) chunk.rcvd seekto).seekto seekto)
      rw [if_neg Bool.false_ne_true]
      exact Nat.add_le_add hfirst hrest

theorem logServer_size (l : Log Unit) (c : Client) :
    logSize (logServer.step l c.actions).1 ≤ logSize l+c.stream.length := by
  have hacts := logSize_acts c.actions (LogSession.start l)
  have hstored : (c.actions.map ServerAction.stored).sum ≤ (chunkBytes (c.recvs.map Recv.chunk)).length :=
    askedActions_stored _ _ _
  have hstream : chunkBytes (c.recvs.map Recv.chunk) = c.stream := by
    rw [chunkBytes, Client.stream, List.map_map]
    rfl
  have hstart : logSize (LogSession.start l).log = logSize l := rfl
  rw [hstream] at hstored
  change logSize ((LogSession.start l).acts c.actions).log ≤ _
  omega

/-- A thread that has left its section undisturbed has kept in step with the log. -/
theorem DeviceThread.Undisturbed.sessionOk (h : x.Undisturbed) {l : Log Unit} {p : ℕ}
    (hrefines : Refines ⟨dev, fun _ => p⟩ l) (hroom : logSize l+x.client.stream.length < 2^63)
    (hknows : x.Knows kernel dev dev')
    (hk : (DeviceThread.sendAndReceiveThread kernel).kind x = .unlock) :
    SessionOk dev x.client := by
  obtain ⟨⟨hgo, -⟩, -⟩ := hknows.replied hk
  refine ⟨?_, clean_of_whole h.no_fault h.whole⟩
  apply receiver_chunks_ok x.recvs _ (LogSession.start l) rfl (start_follows hrefines _ _) hgo h.slots
  have hstart : (LogSession.start l).log.fpos () = 0 := by
    simp [LogSession.start, Log.move]
  refine ⟨hroom, ?_⟩
  rw [hstart, Nat.zero_add]
  exact (Nat.le_add_left ..).trans_lt hroom

end Session

section Chain

variable {T : Type*} {kernel : FixedSizeLlseek} {past : List (T × DeviceThread)} {dev : DriverState}

def answersOf (past : List (T × DeviceThread)) : List Answer := past.map fun e => ⟨false, e.2.sent⟩

def bytesOf (past : List (T × DeviceThread)) : ℕ := (past.map fun e => e.2.client.stream.length).sum

/-- Section after section the threads are answered from the log, and the device stays the one
of the log. -/
theorem chain_answered
    (h : Chain (DeviceThread.sendAndReceiveThread kernel) (DeviceThread.Knows kernel) aesdInitModule
      past dev)
    (hok : ∀ e ∈ past, e.2.Undisturbed) (hbytes : bytesOf past < 2^63) :
    let actions := (clientsOf past).map Client.actions
    let l := logServer.final logInit actions
    answersOf past = logServer.outputs logInit actions ∧ Refines ⟨dev, fun _ => l.fpos ()⟩ l ∧
      logSize l ≤ bytesOf past := by
  induction h with
  | nil => exact ⟨rfl, refines_init, le_rfl⟩
  | @concat past s s' t x hbefore hlast hleaves ih =>
    have hsum : bytesOf (past ++ [(t, x)]) = bytesOf past+x.client.stream.length := by
      simp [bytesOf]
    have hclients : clientsOf (past ++ [(t, x)]) = clientsOf past ++ [x.client] := by
      simp [clientsOf]
    have hanswers : answersOf (past ++ [(t, x)]) = answersOf past ++ [⟨false, x.sent⟩] := by
      simp [answersOf]
    rw [hsum] at hbytes
    obtain ⟨hbeforeAnswers, hrefines, hsize⟩ :=
      ih (fun e he => hok e (List.mem_append_left _ he)) (by omega)
    have hroom : logSize (logServer.final logInit ((clientsOf past).map Client.actions))+
        x.client.stream.length < 2^63 := by omega
    have hsession : SessionOk s x.client :=
      (hok (t, x) (by simp)).sessionOk hrefines hroom hlast hleaves
    obtain ⟨e, hserve, hanswer, hrefines'⟩ := sendAndReceive_follows kernel hrefines hsession
    obtain ⟨hserve', -⟩ := hlast.serves hrefines.reach.wf hleaves
    obtain rfl := Option.some.inj (hserve.symm.trans hserve')
    have hsize' := logServer_size (logServer.final logInit ((clientsOf past).map Client.actions)) x.client
    simp only [hclients, List.map_append, List.map_singleton, Machine.final_append,
      Machine.outputs_append, Machine.final_cons, Machine.final_nil, Machine.outputs_cons,
      Machine.outputs_nil, hanswers, ← hbeforeAnswers, ← hanswer]
    exact ⟨rfl, hrefines', by omega⟩

end Chain

/-- However main and the session threads interleave, the clients are answered, in the order
in which main has accepted them, from the log of all that they have sent; and whenever main
waits for the next client, the device holds the last lines of that log. -/
theorem clients_answered_from_log (kernel : FixedSizeLlseek) {begun : ℕ → DeviceThread}
    (hbegun : ∀ n, (begun n).pc = .lockMutex) (steps : List WholeStep) :
    let w := (wholeServer kernel).final (wholeInit aesdInitModule begun) steps
    let past := sections (((wholeServer kernel).outputs (wholeInit aesdInitModule begun) steps).map Prod.snd)
    let actions := (clientsOf past).map Client.actions
    (∀ e ∈ past, e.2.Undisturbed) → bytesOf past < 2^63 →
      past.map Prod.fst = List.range' 1 past.length ∧
        answersOf past = logServer.outputs logInit actions ∧
        (w.main.pc = .accept → w.main.nextNode = past.length+1 ∧
          w.sessions.shared.liveBytes = (logServer.final logInit actions).kept ∧
          w.sessions.shared.pendingBytes = (logServer.final logInit actions).pending) := by
  intro w past actions hok hbytes
  have hinv : WholeInv kernel aesdInitModule w _ _ := wholeServer_inv hbegun steps
  obtain ⟨dev, hchain, hheld⟩ := hinv.turns.chain
  obtain ⟨hanswers, hrefines, -⟩ := chain_answered hchain hok hbytes
  refine ⟨hinv.order_eq, hanswers, fun hpc => ?_⟩
  obtain ⟨hnext, hfree⟩ := hinv.at_accept hpc
  rw [Held, hfree] at hheld
  rw [show w.sessions.shared = dev from hheld]
  exact ⟨hnext, hrefines.kept_eq, hrefines.pending_eq⟩

/-- A line, and a seek to its second byte. -/
def lineThenSeek : List WholeStep :=
  let text : List UInt8 := seekPrefix ++ [48, 44, 49, 10]
  clientTurn 1 ⟨true, some (plainRecv [34, 35, 10] (by simp) (show 3 ≤ 1024 by decide)), false, .whole⟩ ++
    clientTurn 2 ⟨true, some (plainRecv text (by simp [text]) (by simp [text, seekPrefix, bufSize])),
      false, .whole⟩

theorem clients_answered_from_log_seek :
    let w := (wholeServer boundedLlseek).final (wholeInit aesdInitModule fun _ => startedThread) lineThenSeek
    let past := sections (((wholeServer boundedLlseek).outputs
      (wholeInit aesdInitModule fun _ => startedThread) lineThenSeek).map Prod.snd)
    answersOf past = [⟨false, [34, 35, 10]⟩, ⟨false, [35, 10]⟩] ∧
      answersOf past = logServer.outputs logInit ((clientsOf past).map Client.actions) ∧
      w.sessions.shared.liveBytes = [[34, 35, 10]] := by
  intro w past
  have hpast : ∀ e ∈ past, (∀ action ∈ e.2.client.actions, action.InSlots) ∧
      (∀ fault ∈ e.2.faults, fault = false) ∧ ∀ r ∈ e.2.sends, r = .whole := by
    decide +kernel
  have hok : ∀ e ∈ past, e.2.Undisturbed := by
    intro e he
    obtain ⟨hslots, hfault, hwhole⟩ := hpast e he
    exact ⟨hslots, hfault, hwhole⟩
  have hbytes : bytesOf past = 26 := by decide +kernel
  obtain ⟨-, hanswers, haccept⟩ := clients_answered_from_log boundedLlseek
    (fun _ => (rfl : startedThread.pc = .lockMutex)) lineThenSeek hok (hbytes.trans_lt (by norm_num))
  refine ⟨by decide +kernel, hanswers, ?_⟩
  rw [(haccept (by decide +kernel)).2.1]
  decide +kernel

end ProvenAesd.Server
