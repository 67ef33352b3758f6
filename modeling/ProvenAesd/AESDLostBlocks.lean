import ProvenAesd.AESDOwnership

/-! Where the memory of the driver goes, failing calls included: every live block has its
owner, or was the buffer of an unfinished line when `krealloc` refused to let it grow. -/
namespace ProvenAesd.Driver
open BlockHeap BoundedQueue Mealy DriverState

structure Accounted (s : DriverState) (lost : List ℕ) : Prop where
  ledger : s.heap.Ledger
  live_iff : ∀ i, i ∈ s.heap.live ↔ i ∈ s.owned ∨ i ∈ lost
  apart : ∀ i ∈ lost, i ∉ s.owned
  once : lost.Nodup

/-- The buffer that a call loses: `buffptr` is overwritten before it is tested. -/
def lostBlock (s : DriverState) : DriverCall → Option ℕ
  | .write _ call => if (growWorkingEntry s call).2 = .null then s.working.buffptr.id? else none
  | _ => none

section Write

variable {s : DriverState} {lost : List ℕ} {call : WriteCall}

/-- What the working entry's `krealloc` leaves, if it is not refused. -/
structure Grown (s : DriverState) (heap : Heap) (p : Ptr) : Prop where
  ledger : heap.Ledger
  live_iff : ∀ j, j ∈ heap.live ↔ p = .block j ∨ (j ∈ s.heap.live ∧ s.working.buffptr ≠ .block j)
  source : ∀ j, p = .block j → s.working.buffptr = .block j ∨ j ∉ s.heap.live

theorem Accounted.grown (h : Accounted s lost) (hwf : DeviceWf s) (hok : KreallocOk s call) :
    Grown s (growWorkingEntry s call).1 (growWorkingEntry s call).2 := by
  have hcount := call.count_lt
  have hwork := hwf.working_lt
  have hn : sizeT (s.working.size+call.count) = s.working.size+call.count :=
    sizeT_of_lt (by simp only [WriteCall.count]; omega)
  have hgrow : growWorkingEntry s call =
      s.heap.krealloc s.working.buffptr (s.working.size+call.count) call.alloc := by
    simp only [growWorkingEntry]
    rw [hn]
  have hlive : ∀ i, s.working.buffptr = .block i → i ∈ s.heap.live :=
    fun i hi => hwf.owned_live i (mem_owned.mpr (Or.inr hi))
  by_cases hz : s.working.size+call.count = 0
  · -- an empty request frees the old block
    rw [hgrow, hz, Heap.krealloc_zero]
    refine ⟨h.ledger.kfree hlive, fun j => ?_, fun j hj => by cases hj⟩
    rw [Heap.mem_kfree_live]
    simp
  · have hpos : 0 < s.working.size+call.count := Nat.pos_of_ne_zero hz
    have hledger := h.ledger.krealloc hpos hlive call.alloc
    rcases Heap.krealloc_spec hpos hlive call.alloc with hr | ⟨heap, i, hr, hregrown⟩
    · exact absurd (by rw [hgrow, hr]) hok
    · have hafter := Heap.krealloc_live hpos hr hlive
      rw [hgrow]
      rw [hr] at hledger ⊢
      refine ⟨hledger, fun j => ?_, fun j hj => ?_⟩
      · rw [hafter j, Ptr.block.injEq, eq_comm]
      · cases hj
        exact hregrown.source

/-- The grown working entry owns its block in the place of the old one. -/
theorem Accounted.append (h : Accounted s lost) (hwf : DeviceWf s) (hok : KreallocOk s call) :
    let r := appendUserData (growWorkingEntry s call).1 (growWorkingEntry s call).2 s.working.size
      call
    Accounted (appendedState s r.1 r.2) lost := by
  have hgrown := h.grown hwf hok
  have hwf' := grown_wf hwf hok
  generalize growWorkingEntry s call = g at hgrown hwf'
  have hlive (j : ℕ) : j ∈ (appendUserData g.1 g.2 s.working.size call).1.live ↔ j ∈ g.1.live := by
    simp [appendUserData]
  have howned (j : ℕ) : j ∈ (appendedState s (appendUserData g.1 g.2 s.working.size call).1
      (appendUserData g.1 g.2 s.working.size call).2).owned ↔ j ∈ liveIds s ∨ g.2 = .block j := by
    rw [mem_owned, mem_liveIds]
    rfl
  have hbefore (j : ℕ) : j ∈ s.owned ↔ j ∈ liveIds s ∨ s.working.buffptr = .block j := by
    rw [mem_owned, mem_liveIds]
  refine ⟨appendUserData_ledger hgrown.ledger _ _ _, fun j => ?_, fun j hj => ?_, h.once⟩
  · constructor
    · intro hj
      -- the block that `krealloc` returned, or one it has not touched
      rcases (hgrown.live_iff j).mp ((hlive j).mp hj) with hnew | ⟨hold, hne⟩
      · exact Or.inl ((howned j).mpr (Or.inr hnew))
      · rcases (h.live_iff j).mp hold with hown | hlost
        · exact Or.inl ((howned j).mpr (Or.inl (((hbefore j).mp hown).resolve_right hne)))
        · exact Or.inr hlost
    · rintro (hown | hlost)
      · exact hwf'.owned_live j hown
      · have hnot := mt (hbefore j).mpr (h.apart j hlost)
        rw [not_or] at hnot
        exact (hlive j).mpr ((hgrown.live_iff j).mpr
          (Or.inr ⟨(h.live_iff j).mpr (Or.inr hlost), hnot.2⟩))
  · have hnot := mt (hbefore j).mpr (h.apart j hj)
    rw [not_or] at hnot
    rw [howned, not_or]
    refine ⟨hnot.1, fun hnew => ?_⟩
    -- the block that `krealloc` returned is the old one or a new one, and neither was lost
    rcases hgrown.source j hnew with hold | hfresh
    · exact hnot.2 hold
    · exact hfresh ((h.live_iff j).mpr (Or.inr hj))

theorem Accounted.commit (h : Accounted s lost) (hwf : DeviceWf s)
    (hwf' : DeviceWf (commitWorkingEntry s).1) : Accounted (commitWorkingEntry s).1 lost := by
  have howned := commit_owned hwf
  have hlive (i : ℕ) :
      i ∈ (commitWorkingEntry s).1.heap.live ↔ i ∈ s.heap.live ∧ releasedPtr s ≠ .block i := by
    rw [commit_heap, Heap.mem_kfree_live]
  have hlost (i : ℕ) (hi : i ∈ lost) :
      releasedPtr s ≠ .block i ∧ i ∉ (commitWorkingEntry s).1.owned := by
    have hnot := mt (howned i).mpr (h.apart i hi)
    exact not_or.mp hnot
  refine ⟨?_, fun i => ?_, fun i hi => (hlost i hi).2, h.once⟩
  · rw [commit_heap]
    apply h.ledger.kfree
    intro i hi
    exact hwf.owned_live i ((howned i).mpr (Or.inl hi))
  · constructor
    · intro hi
      obtain ⟨hold, hkept⟩ := (hlive i).mp hi
      -- the hand-over frees the one block that is not owned any more
      rcases (h.live_iff i).mp hold with hown | hgone
      · exact Or.inl (((howned i).mp hown).resolve_left hkept)
      · exact Or.inr hgone
    · rintro (hown | hgone)
      · exact hwf'.owned_live i hown
      · exact (hlive i).mpr ⟨(h.live_iff i).mpr (Or.inr hgone), (hlost i hgone).1⟩

/-- A refused write loses the buffer of the unfinished line. -/
theorem Accounted.refuse (h : Accounted s lost) (hwf : DeviceWf s) :
    Accounted { s with aesdDevice.aesdWorkingEntry.buffptr := .null }
      (lost ++ s.working.buffptr.id?.toList) := by
  have hafter : DriverState.owned { s with aesdDevice.aesdWorkingEntry.buffptr := .null } = liveIds s := by
    rw [owned_eq]
    simp [Ptr.id?, liveIds]
  have hbefore := owned_eq s
  have hnodup := hwf.owned_nodup
  rw [hbefore] at hnodup
  refine ⟨h.ledger, fun i => ?_, fun i hi => ?_, ?_⟩
  · change i ∈ s.heap.live ↔ _
    rw [h.live_iff, hbefore, hafter, List.mem_append, List.mem_append]
    tauto
  · rw [hafter]
    rcases List.mem_append.mp hi with hold | hnew
    · intro hlive
      apply h.apart i hold
      rw [hbefore]
      exact List.mem_append_left _ hlive
    · exact fun hlive => (List.nodup_append.mp hnodup).2.2 i hlive i hnew rfl
  · rw [List.nodup_append]
    refine ⟨h.once, (List.nodup_append.mp hnodup).2.1, ?_⟩
    rintro i hi j hj rfl
    apply h.apart i hi
    rw [hbefore]
    exact List.mem_append_right _ hj

end Write

theorem Accounted.sameStore {s u : DriverState} {lost : List ℕ} (h : Accounted s lost)
    (hsame : SameStore s u) : Accounted u lost := by
  have howned : u.owned = s.owned := by
    rw [owned_eq, owned_eq, liveIds, liveIds, hsame.buffer, hsame.working]
  refine ⟨hsame.heap ▸ h.ledger, fun i => ?_, fun i hi => ?_, h.once⟩
  · rw [← hsame.heap, howned]
    exact h.live_iff i
  · rw [howned]
    exact h.apart i hi

/-- A call loses a block if it is a refused write, and accounts for all others. -/
theorem Accounted.step {s : DriverState} {lost : List ℕ} (h : Accounted s lost) (hwf : DeviceWf s)
    (call : DriverCall) :
    Accounted (driver.step s call).1 (lost ++ (lostBlock s call).toList) := by
  cases call with
  | readStore fpos =>
    simp only [lostBlock, Option.toList_none, List.append_nil]
    exact h.sameStore (sameStore_position s _)
  | readLocked fpos call =>
    obtain ⟨n, hn⟩ := readLocked_state s fpos call
    simp only [lostBlock, Option.toList_none, List.append_nil, driver, driverStep, hn]
    exact h.sameStore (sameStore_position s n)
  | write fpos call =>
    by_cases hok : KreallocOk s call
    · have hwrite : Accounted (aesdWrite s fpos call).state lost := by
        have hgrown := h.append hwf hok
        -- the line is kept, or handed over
        rcases write_state hok fpos with hs | hs
        · rw [hs]
          exact hgrown
        · have hwf' := (write_cases hwf fpos call).1
          rw [hs] at hwf' ⊢
          exact hgrown.commit (grown_wf hwf hok) hwf'
      have hkept : lostBlock s (.write fpos call) = none := if_neg hok
      rw [hkept, Option.toList_none, List.append_nil]
      exact hwrite
    -- the buffer of the unfinished line has lost its only pointer
    · have hnull : (growWorkingEntry s call).2 = .null := not_not.mp hok
      have hgrow : growWorkingEntry s call = (s.heap, .null) := by
        rcases grow_cases hwf call with ⟨-, hg⟩ | ⟨heap, p, hg, hp, -⟩
        · exact hg
        · rw [hg] at hnull
          exact absurd hnull hp
      have hlost : lostBlock s (.write fpos call) = s.working.buffptr.id? := if_pos hnull
      have hstate : (driver.step s (.write fpos call)).1 =
          { s with aesdDevice.aesdWorkingEntry.buffptr := .null } := by
        simp only [driver, driverStep, aesdWrite, hgrow, if_true]
      rw [hlost, hstate]
      exact h.refuse hwf
  | ioctl fpos cmd arg =>
    simp only [lostBlock, Option.toList_none, List.append_nil]
    exact h
  | llseek kernel fpos off whence =>
    simp only [lostBlock, Option.toList_none, List.append_nil]
    exact h

/-- Unloading the module frees all but the lost blocks. -/
theorem Accounted.cleanup {s : DriverState} {lost : List ℕ} (h : Accounted s lost)
    (hwf : DeviceWf s) :
    (aesdCleanupModule s).Ledger ∧ ∀ i, i ∈ (aesdCleanupModule s).live ↔ i ∈ lost := by
  have hperm := held_perm hwf
  have hlive : ∀ i ∈ s.held, i ∈ s.heap.live :=
    fun i hi => hwf.owned_live i (hperm.mem_iff.mp hi)
  constructor
  · rw [cleanup_eq]
    exact h.ledger.kfreeAll (hperm.nodup_iff.mpr hwf.owned_nodup) hlive
  · intro i
    rw [cleanup_eq, Heap.mem_kfreeAll_live, h.live_iff]
    change (i ∈ s.owned ∨ i ∈ lost) ∧ i ∉ s.held ↔ _
    rw [hperm.mem_iff]
    have hapart := h.apart i
    tauto

end ProvenAesd.Driver
