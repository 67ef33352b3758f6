import ProvenAesd.SocketReceive

/-! Sessions whose writes all succeed: while the memory lasts, an allocator that
grants what it can grants every request of a session. -/
namespace ProvenAesd.Server
open BlockHeap BoundedQueue Mealy Driver Driver.DriverState

def Room (s : DriverState) (n : ℕ) : Prop :=
  (s.heap.kfree s.working.buffptr).used+s.working.size+n < addressable

theorem Room.mono {s : DriverState} {m n : ℕ} (h : Room s n) (hmn : m ≤ n) : Room s m := by
  unfold Room at *
  omega

section Write

variable {s : DriverState} {call : WriteCall} {junk : ℕ → UInt8} (hwf : DeviceWf s)
  (halloc : call.alloc = .grant true junk) (hpos : 0 < call.count)

include hwf halloc hpos

theorem grow_of_room (hroom : Room s call.count) :
    ∃ heap i, growWorkingEntry s call = (heap, .block i) ∧
      heap.bytes i =
        resize (s.heap.contents s.working.buffptr) (s.working.size+call.count) junk ∧
      (heap.kfree (.block i)).used = (s.heap.kfree s.working.buffptr).used := by
  have hlive : ∀ i, s.working.buffptr = .block i → i ∈ s.heap.live :=
    fun i hi => hwf.owned_live i (mem_owned.mpr (Or.inr hi))
  have hlt : s.working.size+call.count < 2^63 := by
    unfold Room addressable at hroom
    omega
  have hn : sizeT (s.working.size+call.count) = s.working.size+call.count :=
    sizeT_of_lt (by omega)
  have hfits : (s.heap.kfree s.working.buffptr).used+(s.working.size+call.count) < addressable := by
    unfold Room at hroom
    omega
  have hgrant := Heap.krealloc_of_room (by omega : 0 < s.working.size+call.count) hlive hfits junk
  simp only [growWorkingEntry, halloc]
  rw [hn]
  exact hgrant

theorem kreallocOk_of_room (hroom : Room s call.count) : KreallocOk s call := by
  obtain ⟨heap, i, hg, -, -⟩ := grow_of_room hwf halloc hpos hroom
  rw [KreallocOk, hg]
  simp

/-- What the working entry carries: the bytes it has, and fresh memory where it
has lost its buffer. -/
theorem carriedBytes_of_room (hroom : Room s call.count) :
    carriedBytes s call = resize (s.heap.contents s.working.buffptr) s.working.size junk := by
  obtain ⟨heap, i, hg, hbytes, -⟩ := grow_of_room hwf halloc hpos hroom
  rw [carriedBytes, hg]
  change (heap.bytes i).take s.working.size = _
  rw [hbytes]
  exact resize_take_resize _ (Nat.le_add_right _ _) junk

/-- A line that stays open leaves the room it has not used. -/
theorem room_of_open {m : ℕ} (hroom : Room s (call.count+m)) (fpos : ℕ)
    (hopen : (aesdWrite s fpos call).committed = none) :
    Room (aesdWrite s fpos call).state m := by
  obtain ⟨heap, i, hg, -, hused⟩ :=
    grow_of_room hwf halloc hpos (hroom.mono (Nat.le_add_right _ _))
  have hcop := call.copied_le
  have hsize : sizeT (s.working.size+call.copied) = s.working.size+call.copied := by
    apply sizeT_of_lt
    unfold Room addressable at hroom
    omega
  have hne : Ptr.block i ≠ .null := by simp
  have hblock : (appendUserData heap (.block i) s.working.size call).2.buffptr ≠ .zeroSize := nofun
  simp only [aesdWrite, hg, if_neg hne, if_neg hblock] at hopen ⊢
  by_cases hend : lastByte (appendUserData heap (.block i) s.working.size call).1
      (appendUserData heap (.block i) s.working.size call).2 call.stray = newline
  · rw [if_pos hend] at hopen
    cases hopen
  · rw [if_neg hend]
    -- the copies change the bytes of the block but not its length
    simp only [Room, appendUserData, hsize, Heap.store_kfree_used, hused]
    unfold Room at hroom
    omega

end Write

/-- The chunk can be written, if it is data at all. -/
def RecvCalm (s : Session) (r : Recv) : Prop :=
  s.phase = .receiving → strncmpEq (recvInto s.buf r.chunk) seekPrefix 19 = false →
    r.notCopied = 0 ∧ KreallocOk s.dev (recvCall (recvInto s.buf r.chunk) r)

/-- The kernel copies everything and grants what it can. -/
def Granting (r : Recv) : Prop := r.notCopied = 0 ∧ ∃ junk, r.alloc = .grant true junk

theorem recvCall_request {s : Session} {r : Recv} {junk : ℕ → UInt8}
    (halloc : r.alloc = .grant true junk) (hroom : Room s.dev r.chunk.rcvd) :
    let call := recvCall (recvInto s.buf r.chunk) r
    call.alloc = .grant true junk ∧ 0 < call.count ∧ Room s.dev call.count := by
  intro call
  have hcount : call.count = r.chunk.rcvd := recvCall_count s.buf r
  rw [hcount]
  exact ⟨halloc, r.chunk.rcvd_pos, hroom⟩

theorem recvCall_of_granting {s : Session} {r : Recv} (hwf : DeviceWf s.dev) (hr : Granting r)
    (hroom : Room s.dev r.chunk.rcvd) : KreallocOk s.dev (recvCall (recvInto s.buf r.chunk) r) := by
  obtain ⟨-, junk, halloc⟩ := hr
  obtain ⟨hgrant, hpos, hroom'⟩ := recvCall_request halloc hroom
  exact kreallocOk_of_room hwf hgrant hpos hroom'

theorem carriedInto_of_room {s : Session} {r : Recv} {junk : ℕ → UInt8} (hwf : DeviceWf s.dev)
    (halloc : r.alloc = .grant true junk) (hroom : Room s.dev r.chunk.rcvd) :
    carriedInto s r =
      resize (s.dev.heap.contents s.dev.working.buffptr) s.dev.working.size junk := by
  obtain ⟨hgrant, hpos, hroom'⟩ := recvCall_request halloc hroom
  exact carriedBytes_of_room hwf hgrant hpos hroom'

theorem seekTest_eq_false {mem : List UInt8} (h : ¬seekPrefix <+: mem) :
    strncmpEq mem seekPrefix 19 = false := by
  rw [← Bool.not_eq_true]
  exact mt (seekTest_iff mem).mp h

/-- A seek leaves the device alone. -/
theorem receive_seek {s : Session} {r : Recv} (h : seekPrefix <+: recvInto s.buf r.chunk) :
    (receive s r).dev = s.dev := (receive_sought (chunkAction_of_seek h _ _)).dev_eq

/-- An open chunk leaves the room for those that follow it. -/
theorem receive_room {s : Session} {r : Recv} {m : ℕ} (hwf : DeviceWf s.dev) (hr : Granting r)
    (hok : RecvOk s r) (hopen : r.chunk.endsPacket = false)
    (hroom : Room s.dev (r.chunk.rcvd+m)) : Room (receive s r).dev m := by
  obtain ⟨-, junk, halloc⟩ := hr
  obtain ⟨-, hdata⟩ := recvCall_data s.buf hok.all_copied
  obtain ⟨hgrant, hpos, -⟩ := recvCall_request halloc (hroom.mono (Nat.le_add_right _ m))
  have hcount := recvCall_count s.buf r
  have hkrealloc := hok.krealloc_ok
  rw [(receive_wrote hok.not_seek).dev_eq]
  generalize recvCall (recvInto s.buf r.chunk) r = call at *
  apply room_of_open hwf hgrant hpos (by rwa [hcount])
  have hline : carriedBytes s.dev call ++ call.data ≠ [] := by
    rw [hdata]
    exact List.append_ne_nil_of_right_ne_nil _ r.chunk.ne_nil
  have hsome : 0 < s.dev.working.size+call.count := by
    rw [hcount]
    exact Nat.add_pos_right _ r.chunk.rcvd_pos
  rcases (write_accepted hwf hkrealloc hsome s.fpos).outcome with ⟨-, hk⟩ | ⟨hend, -⟩
  · exact hk.committed_eq
  · rw [endsLine_iff_of_ne_nil hline, hdata,
      List.getLast?_append_of_ne_nil _ r.chunk.ne_nil] at hend
    exact absurd hend (Chunk.endsPacket_eq_false.mp hopen)

/-- Conditions on what is received ask nothing once the loop has ended. -/
theorem guarded_of_idle {G : Session → Recv → Prop} (hG : ∀ s r, s.phase ≠ .receiving → G s r)
    {s : Session} (h : s.phase ≠ .receiving) (rs : List Recv) : receiver.Guarded G s rs := by
  induction rs with
  | nil => trivial
  | cons r rs ih =>
    have hstep : (receiver.step s r).1 = s := (receiver_idle h [r]).1
    constructor
    · exact hG s r h
    · rw [hstep]
      exact ih

theorem calm_of_idle {s : Session} (h : s.phase ≠ .receiving) (rs : List Recv) :
    receiver.Guarded RecvCalm s rs :=
  guarded_of_idle (fun _ _ hs hp => absurd hp hs) h rs

theorem safe_of_idle {s : Session} (h : s.phase ≠ .receiving) (rs : List Recv) :
    receiver.Guarded RecvSafe s rs :=
  guarded_of_idle (fun _ _ hs hp => absurd hp hs) h rs

/-- With room for all the chunks every write of the session succeeds. -/
theorem calm_of_room {rs : List Recv} (hgrant : ∀ r ∈ rs, Granting r) :
    ∀ s : Session, DeviceWf s.dev → Room s.dev (recvBytes rs).length →
      receiver.Guarded RecvCalm s rs := by
  induction rs with
  | nil =>
    intro s _ _
    trivial
  | cons r rs ih =>
    intro s hwf hroom
    have hr : Granting r := hgrant r List.mem_cons_self
    have hrest : ∀ r ∈ rs, Granting r := fun r hr => hgrant r (List.mem_cons_of_mem _ hr)
    rw [recvBytes_cons, List.length_append] at hroom
    by_cases hphase : s.phase = .receiving
    · have hkrealloc := recvCall_of_granting hwf hr (hroom.mono (Nat.le_add_right _ _))
      constructor
      · intro _ _
        exact ⟨hr.1, hkrealloc⟩
      rw [receiver_step hphase]
      by_cases hseek : seekPrefix <+: recvInto s.buf r.chunk
      · have hdev := receive_seek hseek
        apply ih hrest
        · rw [hdev]
          exact hwf
        · rw [hdev]
          exact hroom.mono (Nat.le_add_left _ _)
      · have hok : RecvOk s r := ⟨seekTest_eq_false hseek, hr.1, hkrealloc⟩
        have hrec := receive_data hwf hok
        cases hend : r.chunk.endsPacket with
        | true =>
          -- nothing more is received
          apply calm_of_idle
          rw [hrec.phase_eq, hend]
          decide
        | false => exact ih hrest _ hrec.wf (receive_room hwf hr hok hend hroom)
    · exact calm_of_idle hphase (r :: rs)

/-- No chunk is taken for a seek command, given what the buffer holds. -/
def DataOnly : List UInt8 → List Chunk → Prop
  | _, [] => True
  | buf, chunk :: chunks =>
    ¬seekPrefix <+: recvInto buf chunk ∧ DataOnly (recvInto buf chunk) chunks

theorem safe_of_calm {rs : List Recv} :
    ∀ s : Session, DataOnly s.buf (rs.map Recv.chunk) → receiver.Guarded RecvCalm s rs →
      receiver.Guarded RecvSafe s rs := by
  induction rs with
  | nil =>
    intro s _ _
    trivial
  | cons r rs ih =>
    intro s hdata hcalm
    obtain ⟨hnot, hnext⟩ := hdata
    have htest := seekTest_eq_false hnot
    by_cases hphase : s.phase = .receiving
    · obtain ⟨hcopied, hkrealloc⟩ := hcalm.1 hphase htest
      constructor
      · intro _
        exact ⟨htest, hcopied, hkrealloc⟩
      · apply ih _ _ hcalm.2
        rw [receiver_step hphase, (receive_next s r).1]
        exact hnext
    · exact safe_of_idle hphase (r :: rs)

end ProvenAesd.Server
