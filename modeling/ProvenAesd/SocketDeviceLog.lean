import ProvenAesd.AESDLogStream
import ProvenAesd.SocketThreadTurns

/-! The server as its clients see it: a session adds to the log of lines, may move its
position in it, and is sent what is kept of the log from there on. -/
namespace ProvenAesd.Server
open BoundedQueue ConcatOffset Mealy Driver Driver.DriverState

/-- What the chunks of a client make the server do, as long as no seek is refused. -/
def Client.actions (c : Client) : List ServerAction :=
  askedActions c.buf c.seekto (c.recvs.map Recv.chunk)

/-- A session under way: the log with its position, whether it has moved that position,
and whether a seek has been refused. -/
structure LogSession where
  log : Log Unit
  sought : Bool
  refused : Bool

namespace LogSession

def start (l : Log Unit) : LogSession := ⟨l.move () 0, false, false⟩

/-- Nothing more is done once a seek has been refused. -/
def act (x : LogSession) (action : ServerAction) : LogSession :=
  if x.refused then x
  else
    match action with
    | .data bytes => { x with log := (x.log.write () bytes).1 }
    | .seek seekto => ⟨(x.log.seekTo () seekto).1, true, (x.log.seekTo () seekto).2.retval < 0⟩

def acts (x : LogSession) (actions : List ServerAction) : LogSession := actions.foldl act x

def replyFrom (x : LogSession) : ℕ := if x.sought then x.log.fpos () else 0

end LogSession

/-- How a session looks from its client: whether it has ended the server, and what it
has been sent. -/
structure Answer where
  exited : Bool
  sent : List UInt8
  deriving DecidableEq, Repr

def SessionEnd.answer (e : SessionEnd) : Answer := ⟨e.exited, e.sent⟩

def LogSession.answer (x : LogSession) : Answer :=
  ⟨x.refused, if x.refused then [] else x.log.kept.flatten.drop x.replyFrom⟩

/-- The server on the log. One that has exited is started again on what it has left. -/
def logServer : Machine (Log Unit) (List ServerAction) Answer where
  step l actions :=
    let x := (LogSession.start l).acts actions
    (x.log, x.answer)

/-- A seek names one of the slots of the ring. -/
def ServerAction.InSlots : ServerAction → Prop
  | .seek seekto => seekto.writeCmd.toNat < 10
  | .data _ => True

instance (action : ServerAction) : Decidable action.InSlots :=
  match action with
  | .seek seekto => inferInstanceAs (Decidable (seekto.writeCmd.toNat < 10))
  | .data _ => inferInstanceAs (Decidable True)

/-- The write of a chunk succeeds and keeps the position in `loff_t`; the command of a
seek has a slot. -/
structure ChunkOk (s : Session) (r : Recv) : Prop where
  stored : strncmpEq (recvInto s.buf r.chunk) seekPrefix 19 = false →
    r.notCopied = 0 ∧ KreallocOk s.dev (recvCall (recvInto s.buf r.chunk) r) ∧
      s.fpos+r.chunk.rcvd < 2^63
  slot : (chunkAction (recvInto s.buf r.chunk) r.chunk.rcvd s.seekto).InSlots

instance (s : Session) (r : Recv) : Decidable (ChunkOk s r) :=
  decidable_of_iff
    ((strncmpEq (recvInto s.buf r.chunk) seekPrefix 19 = false →
        r.notCopied = 0 ∧ KreallocOk s.dev (recvCall (recvInto s.buf r.chunk) r) ∧
          s.fpos+r.chunk.rcvd < 2^63) ∧
      (chunkAction (recvInto s.buf r.chunk) r.chunk.rcvd s.seekto).InSlots)
    ⟨fun h => ⟨h.1, h.2⟩, fun h => ⟨h.stored, h.slot⟩⟩

/-- Nothing but a refused seek gets in the way of the session. -/
structure SessionOk (dev : DriverState) (c : Client) : Prop where
  chunks : receiver.Guarded (fun s r => s.phase = .receiving → ChunkOk s r)
    (Session.start dev c.buf c.seekto) c.recvs
  env : c.env.Clean

def Session.files (s : Session) : Files Unit := ⟨s.dev, fun _ => s.fpos⟩

structure Follows (s : Session) (x : LogSession) : Prop where
  refines : Refines s.files x.log
  sought_eq : s.isIoctl = x.sought
  refused_iff : s.phase = .exited ↔ x.refused = true
  fpos_lt : s.fpos < 2^63

theorem update_unit {α : Type*} (f : Unit → α) (a : α) : Function.update f () a = fun _ => a := by
  funext u
  rw [Function.update_self]

section Chunk

variable {s : Session} {r : Recv} {x : LogSession}

theorem Follows.goes_on (h : Follows s x) (hphase : s.phase ≠ .exited) : x.refused = false := by
  rw [Bool.eq_false_iff, ne_eq, ← h.refused_iff]
  exact hphase

theorem act_of_refused (h : x.refused = true) (action : ServerAction) : x.act action = x := by
  unfold LogSession.act
  rw [if_pos h]

theorem act_data (h : x.refused = false) (bytes : List UInt8) :
    x.act (.data bytes) = { x with log := (x.log.write () bytes).1 } := by
  unfold LogSession.act
  rw [h]
  rfl

theorem act_seek (h : x.refused = false) (seekto : AesdSeekto) :
    x.act (.seek seekto) =
      ⟨(x.log.seekTo () seekto).1, true, (x.log.seekTo () seekto).2.retval < 0⟩ := by
  unfold LogSession.act
  rw [h]
  rfl

theorem receive_data_follows (hrec : s.phase = .receiving) (hok : ChunkOk s r) (h : Follows s x)
    (hseek : strncmpEq (recvInto s.buf r.chunk) seekPrefix 19 = false) :
    Follows (receive s r) (x.act (.data r.chunk.bytes)) := by
  obtain ⟨hall, hkrealloc, hfits⟩ := hok.stored hseek
  obtain ⟨hcopied, hdata⟩ := recvCall_data s.buf hall
  have hgoes := h.goes_on (by rw [hrec]; decide)
  have hpos := r.chunk.rcvd_pos
  have hcount : (recvCall (recvInto s.buf r.chunk) r).count = r.chunk.rcvd :=
    congrArg List.length (recvInto_take s.buf r.chunk)
  have hwrite : WriteOk s.dev (s.fpos, recvCall (recvInto s.buf r.chunk) r) :=
    ⟨hkrealloc, by rw [hcopied]; exact hpos⟩
  have hanswers : Answers (files.step s.files (.write () (recvCall (recvInto s.buf r.chunk) r))) _ :=
    h.refines.write hwrite (by rw [hcount]; exact hfits)
  obtain ⟨hrefines, -⟩ := hanswers
  obtain ⟨hdev, hfpos, hio, hphase⟩ := receive_wrote hseek
  -- all of the chunk is written, so the session goes on
  have hret : (aesdWrite s.dev s.fpos (recvCall (recvInto s.buf r.chunk) r)).retval = r.chunk.rcvd := by
    rw [write_retval_of_ok hkrealloc s.fpos, hcopied]
  rw [if_pos hret] at hphase
  have hacc : Accepted s.dev s.fpos (recvCall (recvInto s.buf r.chunk) r)
      (aesdWrite s.dev s.fpos (recvCall (recvInto s.buf r.chunk) r)) :=
    write_accepted h.refines.reach.wf hkrealloc
      (something_of_copied s.dev (hcopied ▸ r.chunk.rcvd_pos)) s.fpos
  rw [act_data hgoes]
  refine ⟨?_, ?_, ?_, ?_⟩
  · rw [Session.files, hdev, hfpos]
    rw [hdata] at hrefines
    simp only [files, Files.move, update_unit] at hrefines
    exact hrefines
  · rw [hio, h.sought_eq]
  · rw [hphase, hgoes]
    cases r.chunk.endsPacket <;> simp
  · rw [hfpos, hacc.fpos_eq, hcopied, sizeT_of_lt (by omega)]
    exact hfits

theorem seek_fpos_lt {dev : DriverState} (hwf : DeviceWf dev) {fpos : ℕ} (hfpos : fpos < 2^63)
    (seekto : AesdSeekto) :
    (aesdAdjustFileOffset dev fpos seekto.writeCmd.toNat seekto.writeCmdOffset.toNat).fpos < 2^63 := by
  have hoff := seekto.writeCmdOffset.toNat_lt
  by_cases hlive : seekto.writeCmd.toNat < dev.buffer.liveCount
  · rw [adjust_eq hwf hlive _ _ hoff]
    split_ifs with hbad
    · exact hfpos
    · -- the position is not behind the end of the slot
      have hsum := slotSizes_sum_lt hwf (Nat.succ_le_of_lt hlive)
      rw [slotSizes, List.range_succ, List.map_append, List.sum_append] at hsum
      simp only [List.map_cons, List.map_nil, List.sum_singleton] at hsum
      change (slotSizes dev.buffer seekto.writeCmd.toNat).sum+_ < _ at hsum
      change (slotSizes dev.buffer seekto.writeCmd.toNat).sum+_ < _
      omega
  · obtain ⟨-, hstay⟩ := adjust_refused hwf hoff fpos fun htaken => hlive htaken.1
    rw [hstay]
    exact hfpos

theorem receive_seek_follows (hrec : s.phase = .receiving) (h : Follows s x) {seekto : AesdSeekto}
    (haction : chunkAction (recvInto s.buf r.chunk) r.chunk.rcvd s.seekto = .seek seekto) :
    Follows (receive s r) (x.act (.seek seekto)) := by
  have hgoes := h.goes_on (by rw [hrec]; decide)
  obtain ⟨hdev, hfpos, hphase⟩ := receive_sought haction
  have hio : (receive s r).isIoctl = true := by simp only [receive, haction]
  have hanswers : Answers (files.step s.files (.seekTo () seekto)) _ := h.refines.seekTo
  obtain ⟨hrefines, hreply⟩ := hanswers
  simp only [files, aesdIoctl, if_true] at hrefines hreply
  have hret : (x.log.seekTo () seekto).2.retval =
      (aesdAdjustFileOffset s.dev s.fpos seekto.writeCmd.toNat seekto.writeCmdOffset.toNat).retval :=
    (congrArg LogReply.retval hreply).symm
  rw [act_seek hgoes]
  refine ⟨?_, hio, ?_, ?_⟩
  · rw [Session.files, hdev, hfpos]
    simp only [Files.move, update_unit] at hrefines
    exact hrefines
  -- `checkerr` exits for the answers on which the log refuses
  · rw [hphase, hret, decide_eq_true_eq]
    split_ifs with hneg hends
    · exact iff_of_true rfl hneg
    · exact iff_of_false (by decide) hneg
    · exact iff_of_false (by decide) hneg
  · rw [hfpos]
    exact seek_fpos_lt h.refines.reach.wf h.fpos_lt seekto

/-- A turn of the receive loop. -/
theorem receive_follows (hrec : s.phase = .receiving) (hok : ChunkOk s r) (h : Follows s x) :
    Follows (receive s r)
      (x.act (chunkAction (recvInto s.buf r.chunk) r.chunk.rcvd s.seekto)) := by
  cases haction : chunkAction (recvInto s.buf r.chunk) r.chunk.rcvd s.seekto with
  | seek seekto => exact receive_seek_follows hrec h haction
  | data bytes =>
    have hseek : strncmpEq (recvInto s.buf r.chunk) seekPrefix 19 = false := by
      cases hseek : strncmpEq (recvInto s.buf r.chunk) seekPrefix 19 with
      | false => rfl
      | true => simp [chunkAction, hseek] at haction
    have hbytes : bytes = r.chunk.bytes := by
      rw [chunkAction, hseek, recvInto_take] at haction
      exact (ServerAction.data.inj haction).symm
    rw [hbytes]
    exact receive_data_follows hrec hok h hseek

end Chunk

theorem acts_of_refused {x : LogSession} (h : x.refused = true) (actions : List ServerAction) :
    x.acts actions = x := by
  induction actions with
  | nil => rfl
  | cons action actions ih =>
    rw [LogSession.acts, List.foldl_cons, act_of_refused h]
    exact ih

/-- The receive loop does what the actions of its chunks do, up to the end of the packet
or the first seek refused. -/
theorem receiver_follows (rs : List Recv) :
    ∀ (s : Session) (x : LogSession), s.phase = .receiving → Follows s x →
      receiver.Guarded (fun s r => s.phase = .receiving → ChunkOk s r) s rs →
      Follows (receiver.final s rs)
        (x.acts (askedActions s.buf s.seekto (rs.map Recv.chunk))) := by
  induction rs with
  | nil => exact fun _ _ _ h _ => h
  | cons r rs ih =>
    intro s x hrec h hok
    rw [Machine.guarded_cons, receiver_step hrec] at hok
    have hnext : Follows (receive s r) _ := receive_follows hrec (hok.1 hrec) h
    obtain ⟨hbuf, hseekto, hphase⟩ := receive_next s r
    rw [Machine.final_cons, receiver_step hrec, List.map_cons, askedActions, LogSession.acts,
      List.foldl_cons]
    change Follows _ (LogSession.acts (x.act
      (chunkAction (recvInto s.buf r.chunk) r.chunk.rcvd s.seekto)) _)
    by_cases hexited : (receive s r).phase = .exited
    · rw [acts_of_refused (hnext.refused_iff.mp hexited), (receiver_idle (by rw [hexited]; decide) rs).1]
      exact hnext
    · have hphase' := hphase.resolve_left hexited
      cases hend : r.chunk.endsPacket with
      | true =>
        rw [hend] at hphase'
        rw [(receiver_idle (by rw [hphase']; decide) rs).1]
        exact hnext
      | false =>
        rw [hend] at hphase'
        have hrest := ih (receive s r) _ hphase' hnext hok.2
        rw [hbuf, hseekto] at hrest
        exact hrest

theorem replyLoop_reachable {env : ReplyEnv} {fuel : ℕ} :
    ∀ {i dev fpos e}, Reachable dev → replyLoop env fuel i dev fpos = some e → Reachable e.dev := by
  induction fuel with
  | zero =>
    intro i dev fpos e _ h
    cases h
  | succ fuel ih =>
    intro i dev fpos e hdev h
    have hread := hdev.read fpos ⟨bufSize, env.copyFault i⟩
    simp only [replyLoop] at h
    split at h
    · split at h
      · cases h
        exact hread
      · obtain ⟨e', he', rfl⟩ := Option.map_eq_some_iff.mp h
        have hrest : Reachable e'.dev := ih hread he'
        exact hrest
    · cases h
      exact hread

/-- A session begins where its counterpart on the log does. -/
theorem start_follows {dev : DriverState} {l : Log Unit} {p : ℕ} (h : Refines ⟨dev, fun _ => p⟩ l)
    (buf : List UInt8) (seekto : AesdSeekto) : Follows (Session.start dev buf seekto) (LogSession.start l) := by
  have hmove : Refines _ _ := h.move (SameStore.refl _) h.reach () (rfl : 0 = 0)
  simp only [Files.move, update_unit] at hmove
  have hrec : (Session.start dev buf seekto).phase = .receiving := rfl
  refine ⟨hmove, rfl, iff_of_false ?_ Bool.false_ne_true, Nat.two_pow_pos 63⟩
  rw [hrec]
  decide

/-- A session is answered from the log. -/
theorem sendAndReceive_follows (kernel : FixedSizeLlseek) {dev : DriverState} {l : Log Unit} {p : ℕ}
    (h : Refines ⟨dev, fun _ => p⟩ l) {c : Client} (hok : SessionOk dev c) :
    let r := logServer.step l c.actions
    ∃ e, sendAndReceive kernel dev c = some e ∧ e.answer = r.2 ∧
      Refines ⟨e.dev, fun _ => r.1.fpos ()⟩ r.1 := by
  have hrun : Follows (c.received dev) ((LogSession.start l).acts c.actions) :=
    receiver_follows c.recvs _ _ rfl (start_follows h c.buf c.seekto) hok.chunks
  simp only [logServer]
  generalize (LogSession.start l).acts c.actions = x at hrun
  have hpos : (c.received dev).fpos = x.log.fpos () := congrFun hrun.refines.fpos_eq ()
  by_cases hphase : (c.received dev).phase = .exited
  · have hrefused := hrun.refused_iff.mp hphase
    refine ⟨⟨true, [], (c.received dev).dev⟩, ?_, ?_, ?_⟩
    · simp only [sendAndReceive, hphase]
    · rw [LogSession.answer, hrefused]
      rfl
    · rw [← hpos]
      exact hrun.refines
  · have hgoes := hrun.goes_on hphase
    have hfrom : DeviceThread.rewindTo kernel (c.received dev) = x.replyFrom := by
      rw [DeviceThread.rewindTo, llseek_rewind, hrun.sought_eq, hpos, LogSession.replyFrom]
    have hlt : x.replyFrom < 2^63 := by
      rw [LogSession.replyFrom, ← hpos]
      split_ifs
      · exact hrun.fpos_lt
      · decide
    obtain ⟨dev', hloop, -, hsame⟩ := replyLoop_clean hok.env (replyFuel (c.received dev).dev) 0
      (c.received dev).dev x.replyFrom hrun.refines.reach.wf hlt (by unfold replyFuel; omega)
    have hreach := replyLoop_reachable hrun.refines.reach hloop
    refine ⟨⟨false, (c.received dev).dev.liveBytes.flatten.drop x.replyFrom, dev'⟩, ?_, ?_, ?_⟩
    · rw [DeviceThread.sendAndReceive_of_goes_on kernel hphase, hfrom]
      exact hloop
    · have hkept := hrun.refines.kept_eq
      change (c.received dev).dev.liveBytes = _ at hkept
      simp only [SessionEnd.answer, LogSession.answer, hgoes, hkept, Bool.false_eq_true, if_false]
    · have hstay : Refines _ _ := hrun.refines.stay (a := ()) hsame hreach rfl
      simp only [Files.move, Session.files, update_unit] at hstay
      rw [← hpos]
      exact hstay

/-- Client after client, the device stays the one of the log. -/
theorem serving_refines (kernel : FixedSizeLlseek) (clients : List Client)
    (h : (serving kernel).Guarded SessionOk aesdInitModule clients) :
    let l := logServer.final logInit (clients.map Client.actions)
    ((serving kernel).outputs aesdInitModule clients).map (Option.map SessionEnd.answer) =
        (logServer.outputs logInit (clients.map Client.actions)).map some ∧
      Refines ⟨(serving kernel).final aesdInitModule clients, fun _ => l.fpos ()⟩ l := by
  intro l
  have hstep : ∀ dev (l : Log Unit) c, Refines ⟨dev, fun _ => l.fpos ()⟩ l → SessionOk dev c →
      Refines ⟨((serving kernel).step dev c).1, fun _ => (logServer.step l c.actions).1.fpos ()⟩
          (logServer.step l c.actions).1 ∧
        ((serving kernel).step dev c).2.map SessionEnd.answer =
          some (logServer.step l c.actions).2 := by
    intro dev l c hr hok
    obtain ⟨e, hserve, hanswer, hrefines⟩ := sendAndReceive_follows kernel hr hok
    have hserving : (serving kernel).step dev c = (e.dev, some e) := by
      simp only [serving, hserve, Option.map_some, Option.getD_some]
    rw [hserving]
    exact ⟨hrefines, congrArg some hanswer⟩
  have hinit : Refines (filesInit : Files Unit) logInit := refines_init
  obtain ⟨hrefines, houtputs⟩ := h.simulates logServer (fun dev l => Refines ⟨dev, fun _ => l.fpos ()⟩ l)
    Client.actions (fun e a => e.map SessionEnd.answer = some a) hstep (t := logInit) hinit
  refine ⟨?_, hrefines⟩
  rw [← List.forall₂_eq_eq_eq, List.forall₂_map_left_iff, List.forall₂_map_right_iff]
  exact houtputs

/-- Whatever chunks its clients send and wherever in the ten slots they seek, the server
answers each of them from the log as long as no call fails, and the device holds the last
lines of it. -/
theorem server_refines_log (kernel : FixedSizeLlseek) (clients : List Client)
    (h : (serving kernel).Guarded SessionOk aesdInitModule clients) :
    let l := logServer.final logInit (clients.map Client.actions)
    let dev := (serving kernel).final aesdInitModule clients
    ((serving kernel).outputs aesdInitModule clients).map (Option.map SessionEnd.answer) =
        (logServer.outputs logInit (clients.map Client.actions)).map some ∧
      dev.liveBytes = l.kept ∧ dev.pendingBytes = l.pending := by
  obtain ⟨houtputs, hrefines⟩ := serving_refines kernel clients h
  exact ⟨houtputs, hrefines.kept_eq, hrefines.pending_eq⟩

/-- A line in two sessions, a seek into it, and one to a line that is not there. -/
def seekingClients : List Client :=
  let text (x y : UInt8) : List UInt8 := seekPrefix ++ [x, 44, y, 10]
  let seek (x y : UInt8) : Client :=
    plainClient [plainRecv (text x y) (by simp [text]) (by simp [text, seekPrefix, bufSize])]
  [plainClient [plainRecv [40] (by simp) (by simp [bufSize])],
    plainClient [plainRecv [41, 10] (by simp) (by simp [bufSize])], seek 48 49, seek 49 48]

theorem server_refines_log_seeking :
    let dev := (serving boundedLlseek).final aesdInitModule seekingClients
    ((serving boundedLlseek).outputs aesdInitModule seekingClients).map (Option.map SessionEnd.answer) =
        [some ⟨false, []⟩, some ⟨false, [40, 41, 10]⟩, some ⟨false, [41, 10]⟩, some ⟨true, []⟩] ∧
      dev.liveBytes = [[40, 41, 10]] ∧ dev.pendingBytes = [] := by
  intro dev
  have hclean (recvs : List Recv) : (plainClient recvs).env.Clean := ⟨fun _ => rfl, fun _ _ => rfl⟩
  have h := server_refines_log boundedLlseek seekingClients
    ⟨⟨by decide +kernel, hclean _⟩, ⟨by decide +kernel, hclean _⟩, ⟨by decide +kernel, hclean _⟩,
      ⟨by decide +kernel, hclean _⟩, trivial⟩
  obtain ⟨houtputs, hlive, hpending⟩ := h
  refine ⟨houtputs.trans (by decide +kernel), hlive.trans (by decide +kernel), hpending.trans ?_⟩
  decide +kernel

end ProvenAesd.Server
