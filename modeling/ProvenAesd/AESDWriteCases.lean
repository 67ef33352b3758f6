import ProvenAesd.AESDDeviceInvariant

/-! What a call of `aesd_write` can do, in terms of the live commands and the
pending bytes. -/
namespace ProvenAesd.Driver
open BlockHeap BoundedQueue Mealy AesdCircularBuffer DriverState

def liveIds (s : DriverState) : List ℕ := s.buffer.liveEntries.filterMap fun e => e.buffptr.id?

theorem owned_eq (s : DriverState) : s.owned = liveIds s ++ s.working.buffptr.id?.toList := by
  rw [owned, List.filterMap_append, liveIds]
  rfl

theorem mem_liveIds {s : DriverState} {i : ℕ} :
    i ∈ liveIds s ↔ ∃ e ∈ s.buffer.liveEntries, e.buffptr = .block i := by
  simp [liveIds]

theorem DeviceWf.liveIds_nodup {s : DriverState} (h : DeviceWf s) : (liveIds s).Nodup := by
  have hn := h.owned_nodup
  rw [owned_eq] at hn
  exact (List.nodup_append.mp hn).1

theorem DeviceWf.working_not_live {s : DriverState} (h : DeviceWf s) {i : ℕ} (hi : i ∈ liveIds s) :
    s.working.buffptr ≠ .block i := by
  intro hp
  have hn := h.owned_nodup
  rw [owned_eq, List.nodup_append] at hn
  exact hn.2.2 i hi i (by simp [hp, Ptr.id?]) rfl

theorem DeviceWf.live_of_liveIds {s : DriverState} (h : DeviceWf s) {i : ℕ} (hi : i ∈ liveIds s) :
    i ∈ s.heap.live := h.owned_live i (mem_owned.mpr (Or.inl (mem_liveIds.mp hi)))

section Append

variable {s : DriverState} {call : WriteCall} {heap : Heap} {e : AesdBufferEntry}

def appendedState (s : DriverState) (heap : Heap) (e : AesdBufferEntry) : DriverState :=
  { heap, aesdDevice := { s.aesdDevice with aesdWorkingEntry := e } }

theorem Appended.live_contents (h : Appended s call heap e) (hwf : DeviceWf s) :
    ∀ le ∈ s.buffer.liveEntries, heap.contents le.buffptr = s.heap.contents le.buffptr := by
  intro le hle
  apply contents_congr
  intro i hi
  have hid : i ∈ liveIds s := mem_liveIds.mpr ⟨le, hle, hi⟩
  exact (h.frame i (hwf.live_of_liveIds hid) (hwf.working_not_live hid)).2.2

theorem Appended.liveBytes_eq (h : Appended s call heap e) (hwf : DeviceWf s) :
    (appendedState s heap e).liveBytes = s.liveBytes :=
  List.map_congr_left fun le hle => entryBytes_congr (h.live_contents hwf le hle)

theorem Appended.deviceWf (h : Appended s call heap e) (hwf : DeviceWf s) :
    DeviceWf (appendedState s heap e) := by
  have hframe (i : ℕ) (hi : i ∈ liveIds s) : e.buffptr ≠ .block i ∧ i ∈ heap.live := by
    obtain ⟨hne, hl, -⟩ := h.frame i (hwf.live_of_liveIds hi) (hwf.working_not_live hi)
    exact ⟨hne, hl⟩
  refine ⟨hwf.ring, hwf.fills, ?_, ?_, ?_, fun _ => h.backed, ?_⟩
  · rw [owned_eq]
    apply List.nodup_append.mpr
    refine ⟨hwf.liveIds_nodup, ?_, ?_⟩
    · change (e.buffptr.id?.toList).Nodup
      cases e.buffptr.id? <;> simp
    · -- the grown block is new or was the working entry's, so no command has it
      intro i hi j hj hij
      have hje : e.buffptr = .block j := by simpa [appendedState] using hj
      exact (hframe i hi).1 (hij ▸ hje)
  · intro i hi
    rcases mem_owned.mp hi with hl | hw
    · exact (hframe i (mem_liveIds.mpr hl)).2
    · exact h.live i hw
  · intro le hle
    apply (hwf.live_backed le hle).congr
    exact h.live_contents hwf le hle
  · change e.size < 2^63
    exact h.backed.size_le.trans_lt (contents_lt h.live)

end Append

theorem add_entry_returned {buffer : AesdCircularBuffer} {e : AesdBufferEntry} {p : EntryPtr}
    (h : (aesdCircularBufferAddEntry buffer e).2 = some p) : p = .overflowEntry := by
  cases hfull : buffer.full with
  | true =>
    rw [add_entry_full hfull] at h
    exact (Option.some.inj h).symm
  | false =>
    rw [add_entry_room hfull] at h
    cases h

/-- The block freed at a hand-over belongs to none of the entries that stay. -/
theorem DeviceWf.handed_over {s s' : DriverState} (hwf : DeviceWf s)
    (hp : s.working.buffptr ≠ .null) (freed : Ptr) (hheap : s'.heap = s.heap.kfree freed)
    (hring : RingWf s'.buffer) (hfills : RingFills s'.buffer) (hw : s'.working = ⟨.null, 0⟩)
    (hkept : ∀ e ∈ s'.buffer.liveEntries, e ∈ s.buffer.liveEntries ++ [s.working])
    (hnodup : (liveIds s').Nodup) (hfreed : ∀ i ∈ liveIds s', freed ≠ .block i) :
    DeviceWf s' := by
  have hcontents (q : Ptr) : s'.heap.contents q = s.heap.contents q := by
    rw [hheap, Heap.kfree_contents]
  refine ⟨hring, hfills, ?_, ?_, ?_, fun h => absurd (by rw [hw]) h, by rw [hw]; decide⟩
  · rw [owned_eq, hw]
    simpa [Ptr.id?] using hnodup
  · intro i hi
    rcases mem_owned.mp hi with hl | hwi
    · have hid := mem_liveIds.mpr hl
      obtain ⟨e, he, hei⟩ := hl
      rw [hheap]
      apply Heap.mem_kfree_live.mpr
      constructor
      · apply hwf.owned_live
        exact List.mem_filterMap.mpr ⟨e, hkept e he, by simpa using hei⟩
      · exact hfreed i hid
    · rw [hw] at hwi
      cases hwi
  · intro e he
    apply Backed.congr _ (hcontents e.buffptr)
    rcases List.mem_append.mp (hkept e he) with hl | hl
    · exact hwf.live_backed e hl
    · rw [List.mem_singleton.mp hl]
      exact hwf.working_backed hp

/-- Handing the working entry over is one push on the queue of commands. -/
theorem commit_push {s : DriverState} (hwf : DeviceWf s) (hp : s.working.buffptr ≠ .null) :
    DeviceWf (commitWorkingEntry s).1 ∧
    ((commitWorkingEntry s).1.liveBytes, (commitWorkingEntry s).2) =
      push 10 s.liveBytes s.pendingBytes ∧
    (commitWorkingEntry s).1.working = ⟨.null, 0⟩ := by
  obtain ⟨hring, hpush⟩ := add_entry_push hwf.ring s.working
  have hfills := add_entry_fills hwf.ring hwf.fills s.working
  have hconserve := push_conserves 10 s.buffer.liveEntries s.working (by decide)
  have hmap := push_map (entryBytes s.heap) 10 s.buffer.liveEntries s.working
  have hnodup := hwf.owned_nodup
  rw [← hpush] at hconserve hmap
  rw [owned, ← hconserve, List.filterMap_append] at hnodup
  have hkept (e : AesdBufferEntry)
      (he : e ∈ (aesdCircularBufferAddEntry s.buffer s.working).1.liveEntries) :
      e ∈ s.buffer.liveEntries ++ [s.working] := by
    rw [← hconserve]
    exact List.mem_append_right _ he
  cases hret : (aesdCircularBufferAddEntry s.buffer s.working).2 with
  | none =>
    -- there was room: nothing is freed
    rw [hret] at hmap
    have hc : commitWorkingEntry s =
        ({ s with
           aesdDevice :=
            { s.aesdDevice with
              aesdDevBuffer := (aesdCircularBufferAddEntry s.buffer s.working).1
              aesdWorkingEntry := ⟨.null, 0⟩ } }, none) := by
      simp only [commitWorkingEntry, hret]
    rw [hc]
    refine ⟨hwf.handed_over hp .null rfl hring hfills rfl hkept (List.nodup_append.mp hnodup).2.1
      (fun i _ => by simp), hmap.symm, rfl⟩
  | some retPtr =>
    -- the oldest command is freed, and no entry that stays has its block
    obtain rfl := add_entry_returned hret
    rw [hret] at hmap hnodup
    let buffer := (aesdCircularBufferAddEntry s.buffer s.working).1
    have hc : commitWorkingEntry s =
        ({ heap := s.heap.kfree buffer.overflowEntry.buffptr
           aesdDevice :=
            { s.aesdDevice with
              aesdDevBuffer := buffer.setBuffptr .overflowEntry .null
              aesdWorkingEntry := ⟨.null, 0⟩ } },
          some (entryBytes s.heap buffer.overflowEntry)) := by
      simp only [commitWorkingEntry, hret]
      rfl
    rw [hc]
    obtain ⟨-, hn, hdisj⟩ := List.nodup_append.mp hnodup
    refine ⟨hwf.handed_over hp buffer.overflowEntry.buffptr rfl ⟨hring.1, hring.2, hring.3⟩
      ⟨hfills.1, hfills.2⟩ rfl hkept hn ?_, ?_, rfl⟩
    · intro i hi he
      have hmem : i ∈ [buffer.overflowEntry].filterMap fun e => e.buffptr.id? :=
        List.mem_filterMap.mpr ⟨_, List.mem_singleton_self _, Ptr.id?_eq_some.mpr he⟩
      exact hdisj i hmem i hi rfl
    · refine Eq.trans ?_ hmap.symm
      refine Prod.ext (List.map_congr_left fun e _ => ?_) rfl
      exact entryBytes_congr (Heap.kfree_contents ..)

/-- The test of `aesd_write`: the last byte is a newline. Without any byte the
test reads in front of the buffer. -/
def EndsLine (line : List UInt8) (stray : UInt8) : Prop := line.getLast?.getD stray = newline

theorem endsLine_iff_of_ne_nil {line : List UInt8} (h : line ≠ []) (stray : UInt8) :
    EndsLine line stray ↔ line.getLast? = some newline := by
  obtain ⟨b, hb⟩ := Option.ne_none_iff_exists'.mp (mt List.getLast?_eq_none_iff.mp h)
  simp [EndsLine, hb]

theorem lastByte_eq {heap : Heap} {e : AesdBufferEntry} (hb : Backed heap e)
    (hlive : ∀ i, e.buffptr = .block i → i ∈ heap.live) (stray : UInt8) :
    lastByte heap e stray = (entryBytes heap e).getLast?.getD stray := by
  have hlt := contents_lt hlive
  have hle := hb.size_le
  rw [lastByte, Heap.load, List.getLast?_eq_getElem?, hb.bytes_length]
  by_cases hz : e.size = 0
  · have hnil : entryBytes heap e = [] := List.eq_nil_of_length_eq_zero (by rw [hb.bytes_length, hz])
    rw [hnil, hz, List.getElem?_eq_none]
    · rfl
    · exact hlt.le.trans (by decide)
  · rw [sizeSub_of_le (by omega) (by omega), entryBytes, List.getElem?_take_of_lt (by omega)]

/-- `-ENOMEM`: the size stays, the pointer does not. -/
structure Refused (s : DriverState) (fpos : ℕ) (call : WriteCall) (o : WriteOutcome) : Prop where
  something : 0 < s.working.size+call.count
  retval_eq : o.retval = -ENOMEM
  fpos_eq : o.fpos = fpos
  returns_eq : o.returns = true
  state_eq : o.state = { s with aesdDevice.aesdWorkingEntry.buffptr := .null }
  committed_eq : o.committed = none
  lost_eq : o.lost = none

structure Kept (s : DriverState) (o : WriteOutcome) (line : List UInt8) : Prop where
  committed_eq : o.committed = none
  lost_eq : o.lost = none
  buffer_eq : o.state.buffer = s.buffer
  liveBytes_eq : o.state.liveBytes = s.liveBytes
  pendingBytes_eq : o.state.pendingBytes = line
  size_eq : o.state.working.size = line.length
  ne_null : o.state.working.buffptr ≠ .null

structure HandedOver (s : DriverState) (o : WriteOutcome) (line : List UInt8) : Prop where
  committed_eq : o.committed = some line
  liveBytes_eq : o.state.liveBytes = (push 10 s.liveBytes line).1
  lost_eq : o.lost = (push 10 s.liveBytes line).2
  working_eq : o.state.working = ⟨.null, 0⟩

/-- A write of no bytes onto nothing pending: the newline test faults. -/
structure Faulted (s : DriverState) (fpos : ℕ) (call : WriteCall) (o : WriteOutcome) : Prop where
  nothing : s.working.size+call.count = 0
  retval_eq : o.retval = call.copied
  fpos_eq : o.fpos = fpos
  returns_eq : o.returns = false
  kept : Kept s o []

structure Accepted (s : DriverState) (fpos : ℕ) (call : WriteCall) (o : WriteOutcome) : Prop where
  something : 0 < s.working.size+call.count
  carried_length : (carriedBytes s call).length = s.working.size
  carried_eq : s.Intact → carriedBytes s call = s.pendingBytes
  retval_eq : o.retval = call.copied
  fpos_eq : o.fpos = sizeT (fpos+call.copied)
  returns_eq : o.returns = true
  outcome :
    (¬EndsLine (carriedBytes s call ++ call.data) call.stray ∧
      Kept s o (carriedBytes s call ++ call.data)) ∨
    (EndsLine (carriedBytes s call ++ call.data) call.stray ∧
      HandedOver s o (carriedBytes s call ++ call.data))

theorem deviceWf_refused {s : DriverState} (hwf : DeviceWf s) :
    DeviceWf { s with aesdDevice.aesdWorkingEntry.buffptr := .null } := by
  refine ⟨hwf.ring, hwf.fills, ?_, fun i hi => ?_, hwf.live_backed, fun h => absurd rfl h,
    hwf.working_lt⟩
  · rw [owned_eq]
    simpa [Ptr.id?, liveIds] using hwf.liveIds_nodup
  · rcases mem_owned.mp hi with hl | hw
    · exact hwf.owned_live i (mem_owned.mpr (Or.inl hl))
    · cases hw

/-- Every call of `aesd_write` is refused, or faults, or keeps the line it has so
far, or hands it over to the ring. -/
theorem write_cases {s : DriverState} (hwf : DeviceWf s) (fpos : ℕ) (call : WriteCall) :
    DeviceWf (aesdWrite s fpos call).state ∧
      (Refused s fpos call (aesdWrite s fpos call) ∨ Faulted s fpos call (aesdWrite s fpos call) ∨
        Accepted s fpos call (aesdWrite s fpos call)) := by
  rcases grow_cases hwf call with ⟨hpos, hg⟩ | ⟨heap, p, hg, hp, happ⟩
  -- `buffptr` is overwritten before it is tested
  · have ho : aesdWrite s fpos call =
        { retval := -ENOMEM
          fpos := fpos
          state := { s with aesdDevice.aesdWorkingEntry.buffptr := .null }
          returns := true
          committed := none
          lost := none } := by
      simp only [aesdWrite, hg, if_true]
    rw [ho]
    exact ⟨deviceWf_refused hwf, Or.inl ⟨hpos, rfl, rfl, rfl, rfl, rfl, rfl⟩⟩
  · generalize hr : appendUserData heap p s.working.size call = r at happ
    obtain ⟨heap', e⟩ := r
    have hwf' := happ.deviceWf hwf
    have hlast := lastByte_eq happ.backed happ.live call.stray
    rw [happ.bytes_eq] at hlast
    have hsize : e.size = (carriedBytes s call ++ call.data).length := by
      rw [happ.size_eq, List.length_append, happ.carried_length, WriteCall.data_length]
    -- `krealloc` of size 0: the test would read in front of the address 16
    by_cases hzero : s.working.size+call.count = 0
    · have hptr : e.buffptr = .zeroSize := happ.zero_iff.mpr hzero
      have ho : aesdWrite s fpos call =
          { retval := call.copied
            fpos := fpos
            state := appendedState s heap' e
            returns := false
            committed := none
            lost := none } := by
        simp only [aesdWrite, hg, if_neg hp, hr]
        rw [if_pos hptr]
        rfl
      have hcop := call.copied_le
      have hnil : carriedBytes s call ++ call.data = [] := by
        apply List.eq_nil_of_length_eq_zero
        rw [← hsize, happ.size_eq]
        omega
      rw [hnil] at hsize
      rw [ho]
      exact ⟨hwf', Or.inr (Or.inl ⟨hzero, rfl, rfl, rfl, rfl, rfl, rfl, happ.liveBytes_eq hwf,
        happ.bytes_eq.trans hnil, hsize, happ.backed.ne_null⟩)⟩
    · have hptr : e.buffptr ≠ .zeroSize := fun h => hzero (happ.zero_iff.mp h)
      have hpos : 0 < s.working.size+call.count := Nat.pos_of_ne_zero hzero
      -- the test of the last byte, which decides between the two
      by_cases hend : EndsLine (carriedBytes s call ++ call.data) call.stray
      · obtain ⟨hwf'', hpush, hw⟩ := commit_push hwf' happ.backed.ne_null
        have hpend : (appendedState s heap' e).pendingBytes = carriedBytes s call ++ call.data :=
          happ.bytes_eq
        rw [happ.liveBytes_eq hwf, hpend] at hpush
        have ho : aesdWrite s fpos call =
            { retval := call.copied
              fpos := sizeT (fpos+call.copied)
              state := (commitWorkingEntry (appendedState s heap' e)).1
              returns := true
              committed := some (entryBytes heap' e)
              lost := (commitWorkingEntry (appendedState s heap' e)).2 } := by
          simp only [aesdWrite, hg, if_neg hp, hr]
          rw [if_neg hptr, if_pos (hlast.trans hend)]
          rfl
        rw [ho]
        exact ⟨hwf'', Or.inr (Or.inr ⟨hpos, happ.carried_length, happ.carried_eq, rfl, rfl, rfl,
          Or.inr ⟨hend, congrArg some happ.bytes_eq, congrArg Prod.fst hpush,
            congrArg Prod.snd hpush, hw⟩⟩)⟩
      · have ho : aesdWrite s fpos call =
            { retval := call.copied
              fpos := sizeT (fpos+call.copied)
              state := appendedState s heap' e
              returns := true
              committed := none
              lost := none } := by
          simp only [aesdWrite, hg, if_neg hp, hr]
          rw [if_neg hptr, if_neg (fun h => hend (hlast.symm.trans h))]
          rfl
        rw [ho]
        exact ⟨hwf', Or.inr (Or.inr ⟨hpos, happ.carried_length, happ.carried_eq, rfl, rfl, rfl,
          Or.inl ⟨hend, rfl, rfl, rfl, happ.liveBytes_eq hwf, happ.bytes_eq, hsize,
            happ.backed.ne_null⟩⟩)⟩

/-- The ring after a hand-over; an entry returned as overwritten has lost its buffer. -/
def handedOverRing (buffer : AesdCircularBuffer) (e : AesdBufferEntry) : AesdCircularBuffer :=
  match (aesdCircularBufferAddEntry buffer e).2 with
  | some retPtr => (aesdCircularBufferAddEntry buffer e).1.setBuffptr retPtr .null
  | none => (aesdCircularBufferAddEntry buffer e).1

theorem commit_buffer (s : DriverState) :
    (commitWorkingEntry s).1.buffer = handedOverRing s.buffer s.working := by
  cases hret : (aesdCircularBufferAddEntry s.buffer s.working).2 with
  | none => simp only [commitWorkingEntry, handedOverRing, hret]
  | some retPtr => simp only [commitWorkingEntry, handedOverRing, hret]

/-- But for the overflow entry it is the ring that `add_entry` leaves. -/
theorem handedOverRing_eq (buffer : AesdCircularBuffer) (e : AesdBufferEntry) :
    ∃ o, handedOverRing buffer e =
      { (aesdCircularBufferAddEntry buffer e).1 with overflowEntry := o } := by
  unfold handedOverRing
  cases hret : (aesdCircularBufferAddEntry buffer e).2 with
  | none => exact ⟨_, rfl⟩
  | some retPtr =>
    obtain rfl := add_entry_returned hret
    exact ⟨_, rfl⟩

/-- A write leaves the ring alone unless it commits a line. -/
theorem write_buffer (s : DriverState) (fpos : ℕ) (call : WriteCall) :
    ((aesdWrite s fpos call).committed = none ∧ (aesdWrite s fpos call).state.buffer = s.buffer) ∨
      ∃ line e, (aesdWrite s fpos call).committed = some line ∧
        (aesdWrite s fpos call).state.buffer = handedOverRing s.buffer e := by
  simp only [aesdWrite]
  split_ifs
  · exact Or.inl ⟨rfl, rfl⟩
  · exact Or.inl ⟨rfl, rfl⟩
  · exact Or.inr ⟨_, _, rfl, commit_buffer _⟩
  · exact Or.inl ⟨rfl, rfl⟩

def KreallocOk (s : DriverState) (call : WriteCall) : Prop :=
  (growWorkingEntry s call).2 ≠ .null

instance (s : DriverState) (call : WriteCall) : Decidable (KreallocOk s call) :=
  inferInstanceAs (Decidable (¬_))

theorem write_retval_of_ok {s : DriverState} {call : WriteCall} (h : KreallocOk s call)
    (fpos : ℕ) : (aesdWrite s fpos call).retval = call.copied := by
  simp only [aesdWrite]
  rw [if_neg h]
  split_ifs <;> rfl

theorem write_retval_of_refused {s : DriverState} {call : WriteCall} (h : ¬KreallocOk s call)
    (fpos : ℕ) : (aesdWrite s fpos call).retval = -ENOMEM := by
  simp only [aesdWrite]
  rw [if_pos (not_not.mp h)]

theorem write_retval_nonneg {s : DriverState} {call : WriteCall} (h : KreallocOk s call)
    (fpos : ℕ) : (aesdWrite s fpos call).retval ≠ -ENOMEM := by
  rw [write_retval_of_ok h]
  have hlt : (0 : ℤ) ≤ call.copied := by omega
  intro he
  rw [he] at hlt
  exact absurd hlt (by decide)

theorem something_of_copied (s : DriverState) {call : WriteCall} (h : 0 < call.copied) :
    0 < s.working.size+call.count :=
  Nat.add_pos_right _ (h.trans_le call.copied_le)

theorem write_accepted {s : DriverState} (hwf : DeviceWf s) {call : WriteCall}
    (h : KreallocOk s call) (hpos : 0 < s.working.size+call.count) (fpos : ℕ) :
    Accepted s fpos call (aesdWrite s fpos call) := by
  rcases (write_cases hwf fpos call).2 with hr | hf | hacc
  · exact absurd hr.retval_eq (write_retval_nonneg h fpos)
  · exact absurd hf.nothing hpos.ne'
  · exact hacc

theorem write_faulted {s : DriverState} (hwf : DeviceWf s) {call : WriteCall}
    (h : KreallocOk s call) (hzero : s.working.size+call.count = 0) (fpos : ℕ) :
    Faulted s fpos call (aesdWrite s fpos call) := by
  rcases (write_cases hwf fpos call).2 with hr | hf | hacc
  · exact absurd hr.retval_eq (write_retval_nonneg h fpos)
  · exact hf
  · exact absurd hzero hacc.something.ne'

theorem write_refused {s : DriverState} (hwf : DeviceWf s) {call : WriteCall}
    (h : ¬KreallocOk s call) (fpos : ℕ) : Refused s fpos call (aesdWrite s fpos call) := by
  have hret := write_retval_of_refused h fpos
  have hlt : (0 : ℤ) ≤ call.copied := by omega
  rcases (write_cases hwf fpos call).2 with hr | hf | hacc
  · exact hr
  · rw [← hf.retval_eq, hret] at hlt
    exact absurd hlt (by decide)
  · rw [← hacc.retval_eq, hret] at hlt
    exact absurd hlt (by decide)

/-! The device under any order of the atomic steps of its operations. -/

inductive DriverCall
  | readStore (fpos : ℕ)
  | readLocked (fpos : ℕ) (call : ReadCall)
  | write (fpos : ℕ) (call : WriteCall)
  | ioctl (fpos cmd : ℕ) (arg : Option AesdSeekto)
  | llseek (kernel : FixedSizeLlseek) (fpos : ℕ) (off : ℤ) (whence : Whence)

def driverStep (s : DriverState) : DriverCall → DriverState × Option ℤ
  | .readStore fpos => (aesdReadStore s fpos, none)
  | .readLocked fpos call =>
    ((aesdReadLocked s fpos call).state, some (aesdReadLocked s fpos call).retval)
  | .write fpos call => ((aesdWrite s fpos call).state, some (aesdWrite s fpos call).retval)
  | .ioctl fpos cmd arg => (s, some (aesdIoctl s fpos cmd arg).retval)
  | .llseek kernel fpos off whence => (s, some (aesdLlseek kernel s fpos off whence).retval)

def driver : Machine DriverState DriverCall (Option ℤ) := ⟨driverStep⟩

/-- The states any calls can bring about, failing ones included. -/
def Reachable (s : DriverState) : Prop := driver.Reachable aesdInitModule s

/-- The devices differ in `nextReadPosition` at most. -/
structure SameStore (s u : DriverState) : Prop where
  heap : s.heap = u.heap
  buffer : s.buffer = u.buffer
  working : s.working = u.working

theorem SameStore.refl (s : DriverState) : SameStore s s := ⟨rfl, rfl, rfl⟩

theorem SameStore.trans {s t u : DriverState} (h : SameStore s t) (h' : SameStore t u) :
    SameStore s u :=
  ⟨h.heap.trans h'.heap, h.buffer.trans h'.buffer, h.working.trans h'.working⟩

theorem SameStore.exists_eq {s u : DriverState} (h : SameStore s u) :
    ∃ n, u = { s with aesdDevice.nextReadPosition := n } := by
  obtain ⟨heap, buffer, n, working⟩ := s
  obtain ⟨heap', buffer', n', working'⟩ := u
  obtain ⟨rfl, rfl, rfl⟩ := h
  exact ⟨n', rfl⟩

theorem sameStore_position (s : DriverState) (n : ℕ) :
    SameStore s { s with aesdDevice.nextReadPosition := n } := ⟨rfl, rfl, rfl⟩

/-- A read leaves everything but `nextReadPosition` alone. -/
theorem readLocked_state (s : DriverState) (fpos : ℕ) (call : ReadCall) :
    ∃ n, (aesdReadLocked s fpos call).state = { s with aesdDevice.nextReadPosition := n } := by
  cases hf : aesdCircularBufferFindEntryOffsetForFpos s.aesdDevice.aesdDevBuffer
      (sizeT s.aesdDevice.nextReadPosition) 0 with
  | mk p off =>
    cases p with
    | none =>
      simp only [aesdReadLocked, hf]
      exact ⟨0, rfl⟩
    | some p =>
      cases hc : call.copyFault with
      | false =>
        simp only [aesdReadLocked, hf, hc, Bool.false_eq_true, if_false]
        exact ⟨_, rfl⟩
      | true =>
        simp only [aesdReadLocked, hf, hc, if_true]
        exact ⟨s.aesdDevice.nextReadPosition, rfl⟩

theorem DeviceWf.nextReadPosition {s : DriverState} (h : DeviceWf s) (n : ℕ) :
    DeviceWf { s with aesdDevice.nextReadPosition := n } :=
  ⟨h.ring, h.fills, h.owned_nodup, h.owned_live, h.live_backed, h.working_backed, h.working_lt⟩

theorem driverStep_wf {s : DriverState} (h : DeviceWf s) (call : DriverCall) :
    DeviceWf (driver.step s call).1 := by
  cases call with
  | readStore fpos => exact h.nextReadPosition _
  | readLocked fpos call =>
    obtain ⟨n, hn⟩ := readLocked_state s fpos call
    simp only [driver, driverStep, hn]
    exact h.nextReadPosition n
  | write fpos call => exact (write_cases h fpos call).1
  | ioctl fpos cmd arg => exact h
  | llseek kernel fpos off whence => exact h

theorem Reachable.wf {s : DriverState} (h : Reachable s) : DeviceWf s :=
  Machine.Reachable.invariant h DeviceWf (fun _ call hs => driverStep_wf hs call) deviceWf_init

/-- What every hand-over to a well-formed ring preserves holds of the ring in
every state the device can reach. -/
theorem Reachable.ring_invariant {s : DriverState} (h : Reachable s)
    (I : AesdCircularBuffer → Prop) (hinit : I aesdCircularBufferInit)
    (hstep : ∀ buffer e, RingWf buffer → RingFills buffer → I buffer →
      I (handedOverRing buffer e)) : I s.buffer := by
  have hboth : DeviceWf s ∧ I s.buffer := by
    apply Machine.Reachable.invariant h (fun s => DeviceWf s ∧ I s.buffer) _ ⟨deviceWf_init, hinit⟩
    rintro s call ⟨hwf, hs⟩
    refine ⟨driverStep_wf hwf call, ?_⟩
    cases call with
    | readStore fpos => exact hs
    | readLocked fpos call =>
      obtain ⟨n, hn⟩ := readLocked_state s fpos call
      simp only [driver, driverStep, hn]
      exact hs
    | write fpos call =>
      rcases write_buffer s fpos call with ⟨-, hkeep⟩ | ⟨line, e, -, hover⟩
      · exact hkeep.symm ▸ hs
      · exact hover.symm ▸ hstep s.buffer e hwf.ring hwf.fills hs
    | ioctl fpos cmd arg => exact hs
    | llseek kernel fpos off whence => exact hs
  exact hboth.2

end ProvenAesd.Driver
