import ProvenAesd.SocketThreadTurns

/-! Threads whose clients send a line each: however they interleave, each client gets
the ten lines up to its own, in the order in which the threads took the mutex. -/
namespace ProvenAesd.Server
open LockedSections Mealy Driver Driver.DriverState

/-- The client has sent one line, and the answer to it has met no trouble. -/
structure DeviceThread.OneLine (x : DeviceThread) : Prop where
  line : ∃ body, newline ∉ body ∧ x.client.stream = body ++ [newline]
  not_seek : x.isIoctl = false
  no_fault : ∀ fault ∈ x.faults, fault = false
  whole : ∀ r ∈ x.sends, r = .whole

section Receive

variable {s : Session} {r : Recv}

theorem receive_isIoctl (h : (receive s r).isIoctl = false) :
    s.isIoctl = false ∧ strncmpEq (recvInto s.buf r.chunk) seekPrefix 19 = false := by
  cases hseek : strncmpEq (recvInto s.buf r.chunk) seekPrefix 19 with
  | true => simp [receive, chunkAction, hseek] at h
  | false =>
    rw [(receive_wrote hseek).isIoctl_eq] at h
    exact ⟨h, rfl⟩

theorem receiver_isIoctl (rs : List Recv) :
    ∀ s : Session, (receiver.final s rs).isIoctl = false → s.isIoctl = false := by
  induction rs with
  | nil => exact fun _ h => h
  | cons r rs ih =>
    intro s h
    have hnext := ih _ h
    by_cases hrec : s.phase = .receiving
    · rw [receiver_step hrec] at hnext
      exact (receive_isIoctl hnext).1
    · rwa [← Machine.final_nil receiver (receiver.step s r).1, ← Machine.final_cons,
        (receiver_idle hrec [r]).1] at hnext

/-- A receive loop that met no seek and no failure, and whose newline comes last. -/
theorem receiver_ok (rs : List Recv) :
    ∀ s : Session, s.phase = .receiving → (receiver.final s rs).phase ≠ .exited →
      (receiver.final s rs).isIoctl = false → newline ∉ (recvBytes rs).dropLast →
      receiver.Guarded RecvOk s rs := by
  induction rs with
  | nil => exact fun _ _ _ _ _ => trivial
  | cons r rs ih =>
    intro s hrec hgo hio hnl
    have hcalm := (receiver_calm s hgo).1 hrec
    rw [Machine.final_cons, receiver_step hrec] at hgo hio
    rw [Machine.guarded_cons, receiver_step hrec]
    obtain ⟨-, hseek⟩ := receive_isIoctl (receiver_isIoctl rs _ hio)
    obtain ⟨hcopied, hkrealloc⟩ := hcalm hseek
    refine ⟨⟨hseek, hcopied, hkrealloc⟩, ?_⟩
    by_cases hnil : rs = []
    · rw [hnil]
      trivial
    · obtain ⟨hrest, hfirst⟩ := not_mem_dropLast_append hnl
      have hopen : r.chunk.endsPacket = false := not_endsPacket (hfirst (recvBytes_ne_nil hnil))
      -- the chunk neither ends the loop nor the process
      have hphase : (receive s r).phase = .receiving := by
        rcases (receive_next s r).2.2 with hexited | hnext
        · have hne : (receive s r).phase ≠ .receiving := by rw [hexited]; decide
          rw [(receiver_idle hne rs).1] at hgo
          exact absurd hexited hgo
        · rw [hnext, hopen]
          rfl
      exact ih _ hphase hgo hio hrest

end Receive

variable {kernel : FixedSizeLlseek} {dev dev' : DriverState} {x : DeviceThread}

/-- No copy to user space has failed, and no `send` has come short. -/
theorem clean_of_whole (hfault : ∀ fault ∈ x.faults, fault = false) (hwhole : ∀ r ∈ x.sends, r = .whole) :
    x.client.env.Clean := by
  constructor
  · intro i
    change x.faults.getD i false = false
    rw [List.getD_eq_getElem?_getD]
    cases hi : x.faults[i]? with
    | none => rfl
    | some fault => exact hfault fault (List.mem_of_getElem? hi)
  · intro i data
    change some ((x.sends.getD i .whole).taken data) = some data.length
    rw [List.getD_eq_getElem?_getD]
    cases hi : x.sends[i]? with
    | none => rfl
    | some r =>
      rw [hwhole r (List.mem_of_getElem? hi)]
      rfl

theorem DeviceThread.OneLine.served (h : x.OneLine) (hknows : x.Knows kernel dev dev')
    (hk : (DeviceThread.sendAndReceiveThread kernel).kind x = .unlock) : LineServed dev x.client := by
  obtain ⟨⟨hgo, hio⟩, -⟩ := hknows.replied hk
  obtain ⟨body, hbody, hstream⟩ := h.line
  refine ⟨⟨body, hbody, hstream⟩, ?_, clean_of_whole h.no_fault h.whole⟩
  apply receiver_ok x.recvs _ rfl hgo (hio.trans h.not_seek)
  change newline ∉ x.client.stream.dropLast
  rw [hstream, List.dropLast_concat]
  exact hbody

variable {T : Type*} {past : List (T × DeviceThread)}

def linesOf (past : List (T × DeviceThread)) : List (List UInt8) :=
  past.map fun e => e.2.client.stream

theorem chain_served
    (h : Chain (DeviceThread.sendAndReceiveThread kernel) (DeviceThread.Knows kernel) aesdInitModule
      past dev)
    (hlines : ∀ e ∈ past, e.2.OneLine) :
    Served dev (linesOf past) ((serving kernel).outputs aesdInitModule (clientsOf past)) := by
  induction h with
  | nil => exact ⟨deviceWf_init, intact_init, rfl, rfl, fun _ hi => absurd hi (Nat.not_lt_zero _)⟩
  | @concat past s s' t x hbefore hlast hleaves ih =>
    have hserved := ih fun e he => hlines e (List.mem_append_left _ he)
    have hline : x.OneLine := hlines (t, x) (by simp)
    obtain ⟨-, hfinal, houtputs⟩ := chain_serving deviceWf_init hbefore
    obtain ⟨hserve, -⟩ := hlast.serves hserved.wf hleaves
    have hlen : ((serving kernel).outputs aesdInitModule (clientsOf past)).length =
        (linesOf past).length := by
      rw [← houtputs.length_eq, linesOf, List.length_map]
    have hnext := @Served.concat kernel _ _ _ hserved hlen _ (hline.served hlast hleaves)
    have hstep : (serving kernel).step s x.client = (s', some ⟨false, x.sent, s'⟩) := by
      simp only [serving, hserve, Option.map_some, Option.getD_some]
    have hclients : clientsOf (past ++ [(t, x)]) = clientsOf past ++ [x.client] := by
      simp [clientsOf]
    have hlinesOf : linesOf (past ++ [(t, x)]) = linesOf past ++ [x.client.stream] := by
      simp [linesOf]
    rw [hclients, hlinesOf, Machine.outputs_append, ← hfinal]
    rw [hstep] at hnext
    simp only [Machine.outputs_cons, Machine.outputs_nil, hstep]
    exact hnext

/-- Each thread that has left its section has sent the last ten lines as of its place
among the sections, its own line last. -/
theorem threads_reply_recent_lines [DecidableEq T] (kernel : FixedSizeLlseek)
    {own : T → DeviceThread} (hout : ∀ t, (own t).inside = false) (moves : List (T × DeviceAnswer)) :
    let P := DeviceThread.sendAndReceiveThread kernel
    let w := (threads P).final (start aesdInitModule own) moves
    let past := sections ((threads P).outputs (start aesdInitModule own) moves)
    (∀ e ∈ past, e.2.OneLine) →
      (∀ i e, past[i]? = some e →
        e.2.sent = (((linesOf past).take (i+1)).drop (i+1-10)).flatten) ∧
      (w.holder = none →
        w.shared.liveBytes = (linesOf past).drop (past.length-10) ∧ w.shared.pendingBytes = []) := by
  intro P w past hlines
  obtain ⟨dev, hchain, hheld⟩ :=
    (sections_in_turn (DeviceThread.contract kernel) aesdInitModule hout moves).chain
  have hserved := chain_served hchain hlines
  obtain ⟨-, -, houtputs⟩ := chain_serving deviceWf_init hchain
  have hlength : (linesOf past).length = past.length := List.length_map ..
  constructor
  · intro i e hi
    have hlt : i < (linesOf past).length := by
      rw [hlength]
      exact (List.getElem?_eq_some_iff.mp hi).1
    obtain ⟨reply, hreply, -, hsent⟩ := hserved.replies i hlt
    obtain ⟨he, heq⟩ := List.getElem?_eq_some_iff.mp hi
    obtain ⟨hr, hreq⟩ := List.getElem?_eq_some_iff.mp hreply
    obtain ⟨dev', hanswered⟩ := houtputs.get he hr
    rw [List.get_eq_getElem, List.get_eq_getElem, hreq, heq, Option.some.injEq] at hanswered
    have htake : ((linesOf past).take (i+1)).length = i+1 := by
      rw [List.length_take]
      omega
    rw [hanswered, recentLines, htake] at hsent
    exact hsent
  · intro hfree
    rw [Held, hfree] at hheld
    change w.shared = dev at hheld
    rw [hheld, hserved.live, hserved.pending, recentLines, hlength]
    exact ⟨rfl, rfl⟩

def twoLines : List (Bool × DeviceAnswer) :=
  let line (b : UInt8) : DeviceAnswer :=
    ⟨true, some (plainRecv [b, 10] (by simp) (show 2 ≤ 1024 by decide)), false, .whole⟩
  (List.replicate 24 [(false, line 33), (true, line 63)]).flatten

theorem threads_reply_recent_lines_two_lines :
    let P := DeviceThread.sendAndReceiveThread boundedLlseek
    let w := (threads P).final (start aesdInitModule fun _ => startedThread) twoLines
    let past := sections ((threads P).outputs (start aesdInitModule fun _ => startedThread) twoLines)
    (∀ e, past[1]? = some e → e.1 = true ∧ e.2.sent = [33, 10, 63, 10]) ∧
      w.shared.liveBytes = [[33, 10], [63, 10]] := by
  intro P w past
  have hpast : ∀ e ∈ past, (e.2.client.stream = [33] ++ [newline] ∨ e.2.client.stream = [63] ++ [newline]) ∧
      e.2.isIoctl = false ∧ (∀ fault ∈ e.2.faults, fault = false) ∧ ∀ r ∈ e.2.sends, r = .whole := by
    decide +kernel
  have h := threads_reply_recent_lines boundedLlseek (fun _ : Bool => (rfl : startedThread.inside = false))
    twoLines (by
      intro e he
      obtain ⟨hline, hio, hfault, hwhole⟩ := hpast e he
      refine ⟨?_, hio, hfault, hwhole⟩
      rcases hline with hline | hline
      · exact ⟨[33], by decide, hline⟩
      · exact ⟨[63], by decide, hline⟩)
  have hlines : linesOf past = [[33, 10], [63, 10]] := by decide +kernel
  have hthread : past[1]?.map Prod.fst = some true := by decide +kernel
  obtain ⟨hsent, hlive⟩ := h
  refine ⟨fun e he => ⟨?_, ?_⟩, ?_⟩
  · rw [he] at hthread
    exact Option.some.inj hthread
  · rw [hsent 1 e he]
    change (((linesOf past).take 2).drop 0).flatten = _
    rw [hlines]
    rfl
  · rw [(hlive (by decide +kernel)).1]
    change (linesOf past).drop (past.length-10) = _
    have hlength : past.length = 2 := by decide +kernel
    rw [hlines, hlength]
    rfl

end ProvenAesd.Server
