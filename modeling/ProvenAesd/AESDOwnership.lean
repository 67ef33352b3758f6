import ProvenAesd.AESDWriteConservation

/-! Who owns the allocated blocks: the ten slots and the working entry, each block
once, and unloading the module frees what they own. -/
namespace ProvenAesd.Driver
open BlockHeap BoundedQueue Mealy AesdCircularBuffer DriverState

def aesdCircularBufferDestroy (heap : Heap) (buffer : AesdCircularBuffer) : Heap :=
  foreachIndices.foldl (fun heap index =>
    let entry := buffer.slot index
    if entry.buffptr ≠ .null then heap.kfree entry.buffptr else heap) heap

/-- What `aesd_cleanup_module` does to the memory. -/
def aesdCleanupModule (s : DriverState) : Heap :=
  let heap := aesdCircularBufferDestroy s.heap s.aesdDevice.aesdDevBuffer
  if s.aesdDevice.aesdWorkingEntry.buffptr ≠ .null then
    heap.kfree s.aesdDevice.aesdWorkingEntry.buffptr
  else heap

namespace DriverState

/-- The buffers of the ten slots, in physical order, and of the working entry. -/
def holders (s : DriverState) : List Ptr :=
  foreachIndices.map (fun i => (s.buffer.slot i).buffptr) ++ [s.working.buffptr]

def held (s : DriverState) : List ℕ := s.holders.filterMap Ptr.id?

end DriverState

theorem kfree_nonnull (heap : Heap) (p : Ptr) :
    (if p ≠ .null then heap.kfree p else heap) = heap.kfree p := by
  cases p <;> rfl

theorem cleanup_eq (s : DriverState) : aesdCleanupModule s = s.heap.kfreeAll s.holders := by
  have hdestroy : aesdCircularBufferDestroy s.heap s.buffer =
      s.heap.kfreeAll (foreachIndices.map fun i => (s.buffer.slot i).buffptr) := by
    rw [Heap.kfreeAll, List.foldl_map]
    unfold aesdCircularBufferDestroy
    simp only [kfree_nonnull]
  unfold aesdCleanupModule
  simp only [kfree_nonnull]
  rw [hdestroy, holders, Heap.kfreeAll, Heap.kfreeAll, List.foldl_append]
  rfl

/-- The slots that are not live hold nothing. -/
theorem held_perm {s : DriverState} (hwf : DeviceWf s) : s.held.Perm s.owned := by
  have hslots := (hwf.fills.slots_perm hwf.ring).filterMap fun e => e.buffptr.id?
  have hnone : (List.replicate (10-s.buffer.liveCount) (default : AesdBufferEntry)).filterMap
      (fun e => e.buffptr.id?) = [] := by
    apply List.filterMap_eq_nil_iff.mpr
    intro e he
    rw [List.eq_of_mem_replicate he]
    rfl
  rw [List.filterMap_append, hnone, List.append_nil, List.filterMap_map] at hslots
  rw [held, holders, owned, List.filterMap_append, List.filterMap_append, List.filterMap_map]
  exact hslots.append_right _

/-- The books of the allocator are right, nothing live has been lost sight of,
and the overflow entry has no buffer. -/
structure SoleOwners (s : DriverState) : Prop where
  ledger : s.heap.Ledger
  live_owned : ∀ i ∈ s.heap.live, i ∈ s.owned
  overflow_null : s.buffer.overflowEntry.buffptr = .null

theorem soleOwners_init : SoleOwners aesdInitModule :=
  ⟨Heap.ledger_empty, fun _ hi => absurd hi (Finset.notMem_empty _), rfl⟩

theorem appendUserData_ledger {heap : Heap} (h : heap.Ledger) (p : Ptr) (size : ℕ)
    (call : WriteCall) : (appendUserData heap p size call).1.Ledger :=
  (h.store p size _).store p size _

/-- The grown working entry has the place of the one before it. -/
theorem SoleOwners.grow {s : DriverState} (h : SoleOwners s) (hwf : DeviceWf s) {call : WriteCall}
    (hok : KreallocOk s call) (hpos : 0 < call.count) :
    let r := appendUserData (growWorkingEntry s call).1 (growWorkingEntry s call).2 s.working.size
      call
    SoleOwners (appendedState s r.1 r.2) := by
  have hwork := hwf.working_lt
  have hcount := call.count_lt
  have hn : sizeT (s.working.size+call.count) = s.working.size+call.count :=
    sizeT_of_lt (by simp only [WriteCall.count]; omega)
  have hsize : 0 < s.working.size+call.count := by omega
  have hlive : ∀ i, s.working.buffptr = .block i → i ∈ s.heap.live :=
    fun i hi => hwf.owned_live i (mem_owned.mpr (Or.inr hi))
  have hgrow : growWorkingEntry s call =
      s.heap.krealloc s.working.buffptr (s.working.size+call.count) call.alloc := by
    simp only [growWorkingEntry]
    rw [hn]
  have hkept := h.ledger.krealloc hsize hlive call.alloc
  rcases Heap.krealloc_spec hsize hlive call.alloc with hr | ⟨heap, i, hr, -⟩
  · exact absurd (by rw [hgrow, hr]) hok
  · have hafter := Heap.krealloc_live hsize hr hlive
    have hledger : heap.Ledger := by rwa [hr] at hkept
    rw [← hgrow] at hr
    rw [hr]
    refine ⟨appendUserData_ledger hledger (.block i) s.working.size call, fun j hj => ?_,
      h.overflow_null⟩
    have hj' : j ∈ heap.live := by simpa [appendUserData, appendedState] using hj
    apply mem_owned.mpr
    rcases (hafter j).mp hj' with rfl | ⟨hold, hne⟩
    · exact Or.inr rfl
    · rcases mem_owned.mp (h.live_owned j hold) with hl | hw
      · exact Or.inl hl
      · exact absurd hw hne

def releasedPtr (s : DriverState) : Ptr :=
  match (aesdCircularBufferAddEntry s.buffer s.working).2 with
  | some retPtr => ((aesdCircularBufferAddEntry s.buffer s.working).1.deref retPtr).buffptr
  | none => .null

theorem commit_heap (s : DriverState) :
    (commitWorkingEntry s).1.heap = s.heap.kfree (releasedPtr s) := by
  cases hret : (aesdCircularBufferAddEntry s.buffer s.working).2 with
  | none =>
    simp only [commitWorkingEntry, releasedPtr, hret]
    rfl
  | some retPtr => simp only [commitWorkingEntry, releasedPtr, hret]

theorem handedOver_overflow {buffer : AesdCircularBuffer} (h : RingFills buffer)
    (e : AesdBufferEntry) : (handedOverRing buffer e).overflowEntry.buffptr = .null := by
  unfold handedOverRing
  cases hfull : buffer.full with
  | true =>
    rw [add_entry_full hfull]
    rfl
  | false =>
    -- the slot that was copied out has not been used yet
    rw [add_entry_room hfull]
    change (buffer.slot buffer.inOffs).buffptr = .null
    rw [h.unused hfull buffer.inOffs le_rfl]
    rfl

/-- The entries before a hand-over are the one released and those after it. -/
theorem commit_conserves {s : DriverState} (hwf : DeviceWf s) :
    ((aesdCircularBufferAddEntry s.buffer s.working).2.map
        (aesdCircularBufferAddEntry s.buffer s.working).1.deref).toList ++
      (commitWorkingEntry s).1.buffer.liveEntries = s.buffer.liveEntries ++ [s.working] := by
  obtain ⟨-, hpush⟩ := add_entry_push hwf.ring s.working
  have hconserve := push_conserves 10 s.buffer.liveEntries s.working (by decide)
  rw [← hpush] at hconserve
  obtain ⟨o, ho⟩ := handedOverRing_eq s.buffer s.working
  rw [commit_buffer, ho]
  exact hconserve

theorem releasedPtr_iff (s : DriverState) (i : ℕ) : releasedPtr s = .block i ↔
    ∃ e ∈ ((aesdCircularBufferAddEntry s.buffer s.working).2.map
      (aesdCircularBufferAddEntry s.buffer s.working).1.deref).toList, e.buffptr = .block i := by
  unfold releasedPtr
  cases (aesdCircularBufferAddEntry s.buffer s.working).2 <;> simp

/-- Who owned a block before a hand-over owns it after it, or the block is released. -/
theorem commit_owned {s : DriverState} (hwf : DeviceWf s) (i : ℕ) :
    i ∈ s.owned ↔ releasedPtr s = .block i ∨ i ∈ (commitWorkingEntry s).1.owned := by
  have hnull : (commitWorkingEntry s).1.working.buffptr = .null := by
    simp only [commitWorkingEntry]
    split <;> rfl
  have hafter : i ∈ (commitWorkingEntry s).1.owned ↔
      ∃ e ∈ (commitWorkingEntry s).1.buffer.liveEntries, e.buffptr = .block i := by
    rw [mem_owned, hnull]
    simp
  have hbefore : i ∈ s.owned ↔ ∃ e ∈ s.buffer.liveEntries ++ [s.working], e.buffptr = .block i := by
    rw [mem_owned]
    simp [or_and_right, exists_or]
  rw [hbefore, ← commit_conserves hwf, releasedPtr_iff, hafter]
  simp [or_and_right, exists_or]

/-- A hand-over moves the working entry's block into the ring, and the block of
the entry that leaves the ring is freed. -/
theorem SoleOwners.commit {s : DriverState} (h : SoleOwners s) (hwf : DeviceWf s) :
    SoleOwners (commitWorkingEntry s).1 := by
  refine ⟨?_, ?_, ?_⟩
  · rw [commit_heap]
    apply h.ledger.kfree
    intro i hi
    exact hwf.owned_live i ((commit_owned hwf i).mpr (Or.inl hi))
  · intro i hi
    rw [commit_heap, Heap.mem_kfree_live] at hi
    exact ((commit_owned hwf i).mp (h.live_owned i hi.1)).resolve_left hi.2
  · rw [commit_buffer]
    exact handedOver_overflow hwf.fills s.working

/-- A write that gets its memory has grown the working entry, and may have handed
it over. -/
theorem write_state {s : DriverState} {call : WriteCall} (hok : KreallocOk s call) (fpos : ℕ) :
    let r := appendUserData (growWorkingEntry s call).1 (growWorkingEntry s call).2 s.working.size
      call
    (aesdWrite s fpos call).state = appendedState s r.1 r.2 ∨
      (aesdWrite s fpos call).state = (commitWorkingEntry (appendedState s r.1 r.2)).1 := by
  simp only [aesdWrite]
  rw [if_neg hok]
  split_ifs
  · exact Or.inl rfl
  · exact Or.inr rfl
  · exact Or.inl rfl

theorem grown_wf {s : DriverState} (hwf : DeviceWf s) {call : WriteCall} (hok : KreallocOk s call) :
    let r := appendUserData (growWorkingEntry s call).1 (growWorkingEntry s call).2 s.working.size
      call
    DeviceWf (appendedState s r.1 r.2) := by
  rcases grow_cases hwf call with ⟨-, hg⟩ | ⟨heap, p, hg, -, happ⟩
  · exact absurd (by rw [hg]) hok
  · rw [hg]
    exact happ.deviceWf hwf

theorem SoleOwners.write {s : DriverState} (h : SoleOwners s) (hwf : DeviceWf s)
    {call : ℕ × WriteCall} (hok : WriteOk s call) : SoleOwners (writer.step s call).1 := by
  have hpos : 0 < call.2.count := hok.2.trans_le call.2.copied_le
  have hgrown := h.grow hwf hok.1 hpos
  change SoleOwners (aesdWrite s call.1 call.2).state
  rcases write_state hok.1 call.1 with hs | hs
  · rw [hs]
    exact hgrown
  · rw [hs]
    exact hgrown.commit (grown_wf hwf hok.1)

/-- Each live block has one holder, no holder has a dead one, and unloading the
module frees every block that was ever handed out exactly once. -/
structure OwnedOnce (s : DriverState) : Prop where
  one_holder : ∀ i ∈ s.heap.live, s.held.count i = 1
  holders_live : ∀ i ∈ s.held, i ∈ s.heap.live ∧ i ∉ s.heap.retired
  overflow_dead : ∀ i, s.buffer.overflowEntry.buffptr = .block i → i ∉ s.heap.live
  all_freed : (aesdCleanupModule s).live = ∅
  freed_once : ∀ i < s.heap.next, (aesdCleanupModule s).retired.count i = 1

theorem ownedOnce {s : DriverState} (h : SoleOwners s) (hwf : DeviceWf s) : OwnedOnce s := by
  have hperm := held_perm hwf
  have hnodup : s.held.Nodup := hperm.nodup_iff.mpr hwf.owned_nodup
  have hlive : ∀ i ∈ s.held, i ∈ s.heap.live :=
    fun i hi => hwf.owned_live i (hperm.mem_iff.mp hi)
  have hheld : ∀ i ∈ s.heap.live, i ∈ s.held :=
    fun i hi => hperm.mem_iff.mpr (h.live_owned i hi)
  have hempty : (aesdCleanupModule s).live = ∅ := by
    apply Finset.eq_empty_of_forall_notMem
    intro i hi
    rw [cleanup_eq, Heap.mem_kfreeAll_live] at hi
    exact hi.2 (hheld i hi.1)
  have hledger : (aesdCleanupModule s).Ledger := by
    rw [cleanup_eq]
    exact h.ledger.kfreeAll hnodup hlive
  refine ⟨?_, ?_, ?_, hempty, ?_⟩
  · intro i hi
    exact List.count_eq_one_of_mem hnodup (hheld i hi)
  · intro i hi
    exact ⟨hlive i hi, h.ledger.not_retired (hlive i hi)⟩
  · intro i hi
    rw [h.overflow_null] at hi
    cases hi
  · intro i hi
    apply List.count_eq_one_of_mem hledger.once
    rw [hledger.accounted, hempty, cleanup_eq, Heap.kfreeAll_next]
    exact ⟨hi, Finset.notMem_empty i⟩

/-- Successful writes never lose, share or free twice a block of memory, and
unloading the module gives all of them back. -/
theorem memory_owned_once (calls : List (ℕ × WriteCall))
    (h : writer.Guarded WriteOk aesdInitModule calls) :
    OwnedOnce (writer.final aesdInitModule calls) := by
  have hboth : DeviceWf (writer.final aesdInitModule calls) ∧
      SoleOwners (writer.final aesdInitModule calls) := by
    apply h.invariant (fun s => DeviceWf s ∧ SoleOwners s) _ ⟨deviceWf_init, soleOwners_init⟩
    rintro s call ⟨hwf, hown⟩ hok
    exact ⟨(write_cases hwf call.1 call.2).1, hown.write hwf hok⟩
  exact ownedOnce hboth.2 hboth.1

/-- A line whose buffer moves as it grows, and a pending byte. -/
theorem memory_owned_once_moving_line :
    OwnedOnce (writer.final aesdInitModule
      [(0, wholeWrite (.grant true fun _ => 0) [104] (by decide)),
        (0, wholeWrite (.grant false fun _ => 1) [105, 10] (by decide)),
        (0, wholeWrite (.grant false fun _ => 2) [106] (by decide))]) :=
  memory_owned_once _ ⟨by decide, by decide, by decide, trivial⟩

end ProvenAesd.Driver
