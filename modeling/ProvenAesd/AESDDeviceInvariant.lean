import ProvenAesd.AESDDevice
import ProvenAesd.AESDRingQueue

/-! What every operation keeps true of the device: the ring is well formed, each
entry's bytes are backed by a block of its own, and the working entry is in step
with its block. One case analysis of `aesd_write` serves all later results. -/
namespace ProvenAesd.Driver
open BlockHeap BoundedQueue Mealy AesdCircularBuffer

namespace DriverState

abbrev buffer (s : DriverState) : AesdCircularBuffer := s.aesdDevice.aesdDevBuffer

abbrev working (s : DriverState) : AesdBufferEntry := s.aesdDevice.aesdWorkingEntry

def liveBytes (s : DriverState) : List (List UInt8) :=
  s.buffer.liveEntries.map (entryBytes s.heap)

def pendingBytes (s : DriverState) : List UInt8 := entryBytes s.heap s.working

def owned (s : DriverState) : List ℕ :=
  (s.buffer.liveEntries ++ [s.working]).filterMap fun e => e.buffptr.id?

/-- No refused allocation has left a size without its bytes. -/
def Intact (s : DriverState) : Prop := s.working.buffptr = .null → s.working.size = 0

end DriverState

open DriverState

structure Backed (heap : Heap) (e : AesdBufferEntry) : Prop where
  ne_null : e.buffptr ≠ .null
  size_le : e.size ≤ (heap.contents e.buffptr).length

structure DeviceWf (s : DriverState) : Prop where
  ring : RingWf s.buffer
  fills : RingFills s.buffer
  owned_nodup : s.owned.Nodup
  owned_live : ∀ i ∈ s.owned, i ∈ s.heap.live
  live_backed : ∀ e ∈ s.buffer.liveEntries, Backed s.heap e
  working_backed : s.working.buffptr ≠ .null → Backed s.heap s.working
  working_lt : s.working.size < 2^63

theorem deviceWf_init : DeviceWf aesdInitModule where
  ring := ringWf_init
  fills := ringFills_init
  owned_nodup := List.nodup_nil
  owned_live := fun _ hi => absurd hi List.not_mem_nil
  live_backed := fun _ he => absurd he List.not_mem_nil
  working_backed := fun h => absurd rfl h
  working_lt := by decide

theorem mem_owned {s : DriverState} {i : ℕ} :
    i ∈ s.owned ↔ (∃ e ∈ s.buffer.liveEntries, e.buffptr = .block i) ∨
      s.working.buffptr = .block i := by
  simp [owned]

theorem Backed.bytes_length {heap : Heap} {e : AesdBufferEntry} (h : Backed heap e) :
    (entryBytes heap e).length = e.size := by
  rw [entryBytes, List.length_take, min_eq_left h.size_le]

theorem size_of_intact {s : DriverState} (hwf : DeviceWf s) (hint : s.Intact) :
    s.working.size = s.pendingBytes.length := by
  by_cases hnull : s.working.buffptr = .null
  · rw [pendingBytes, entryBytes, hint hnull]
    rfl
  · exact (hwf.working_backed hnull).bytes_length.symm

theorem contents_congr {h h' : Heap} {p : Ptr}
    (hb : ∀ i, p = .block i → h'.bytes i = h.bytes i) : h'.contents p = h.contents p := by
  cases p with
  | block i => exact hb i rfl
  | _ => rfl

theorem entryBytes_congr {h h' : Heap} {e : AesdBufferEntry}
    (hb : h'.contents e.buffptr = h.contents e.buffptr) : entryBytes h' e = entryBytes h e := by
  rw [entryBytes, entryBytes, hb]

theorem Backed.congr {h h' : Heap} {e : AesdBufferEntry} (hb : Backed h e)
    (hc : h'.contents e.buffptr = h.contents e.buffptr) : Backed h' e :=
  ⟨hb.ne_null, by rw [hc]; exact hb.size_le⟩

theorem contents_lt {h : Heap} {p : Ptr} (hp : ∀ i, p = .block i → i ∈ h.live) :
    (h.contents p).length < 2^63 := by
  cases p with
  | block i =>
    have hle : (h.bytes i).length ≤ ∑ j ∈ h.live, (h.bytes j).length :=
      Finset.single_le_sum (f := fun j => (h.bytes j).length) (fun _ _ => Nat.zero_le _) (hp i rfl)
    exact hle.trans_lt h.fits
  | _ => simp

theorem WriteCall.copied_le (call : WriteCall) : call.copied ≤ call.count := Nat.sub_le ..

@[simp] theorem WriteCall.data_length (call : WriteCall) : call.data.length = call.copied := by
  simp only [WriteCall.data, List.length_take]
  exact min_eq_left call.copied_le

/-- The bytes of the working entry as they are in the buffer that `krealloc` returns. -/
def carriedBytes (s : DriverState) (call : WriteCall) : List UInt8 :=
  ((growWorkingEntry s call).1.contents (growWorkingEntry s call).2).take s.working.size

/-- What the allocation and the copy leave behind: the new working entry stands
for the carried bytes followed by the user's, and no other block is touched. -/
structure Appended (s : DriverState) (call : WriteCall) (heap : Heap) (e : AesdBufferEntry) :
    Prop where
  carried_length : (carriedBytes s call).length = s.working.size
  carried_eq : s.Intact → carriedBytes s call = s.pendingBytes
  bytes_eq : entryBytes heap e = carriedBytes s call ++ call.data
  size_eq : e.size = s.working.size+call.copied
  zero_iff : e.buffptr = .zeroSize ↔ s.working.size+call.count = 0
  backed : Backed heap e
  live : ∀ i, e.buffptr = .block i → i ∈ heap.live
  frame : ∀ j ∈ s.heap.live, s.working.buffptr ≠ .block j →
    e.buffptr ≠ .block j ∧ j ∈ heap.live ∧ heap.bytes j = s.heap.bytes j

theorem appended_of_regrown {s : DriverState} (hwf : DeviceWf s) (call : WriteCall) {heap : Heap}
    {i : ℕ} (hg : growWorkingEntry s call = (heap, .block i))
    (hpos : s.working.size+call.count ≠ 0)
    (h : Heap.Regrown s.heap s.working.buffptr (s.working.size+call.count) heap i) :
    let r := appendUserData heap (.block i) s.working.size call
    Appended s call r.1 r.2 := by
  have hcarried : carriedBytes s call = (heap.bytes i).take s.working.size := by
    rw [carriedBytes, hg]
    rfl
  have hcop := call.copied_le
  have hlen := h.length
  -- the new block holds all these bytes, so their number has not wrapped
  have hsz : s.working.size+call.copied < 2^64 := by
    have hlt := contents_lt (h := heap) (p := .block i) (by rintro j hj; cases hj; exact h.live)
    simp only [Heap.contents_block, hlen] at hlt
    omega
  intro r
  have hsize : r.2.size = s.working.size+call.copied := sizeT_of_lt hsz
  have hbytes : r.1.bytes i = overwrite (overwrite (heap.bytes i) s.working.size
      (List.replicate call.count 0)) s.working.size call.data := by
    simp only [r, appendUserData, Heap.store_bytes_self]
  have htake : entryBytes r.1 r.2 = carriedBytes s call ++ call.data := by
    rw [hcarried]
    change (r.1.bytes i).take r.2.size = _
    -- the copy covers what `memset` has cleared, as far as the new size reaches
    have hfit := overwrite_take (overwrite (heap.bytes i) s.working.size
      (List.replicate call.count 0)) call.data s.working.size
      (by simp only [overwrite_length, hlen, WriteCall.data_length]; omega)
    rw [WriteCall.data_length, overwrite_take_off] at hfit
    rw [hsize, hbytes, hfit]
  refine ⟨by simp [hcarried, hlen], fun hint => ?_, htake, hsize, iff_of_false nofun hpos,
    ⟨by simp [r, appendUserData], ?_⟩, ?_, ?_⟩
  -- only a buffer that is still there has bytes for `krealloc` to keep
  · have hold : s.working.size ≤ (s.heap.contents s.working.buffptr).length := by
      by_cases hp : s.working.buffptr = .null
      · rw [hint hp]
        exact Nat.zero_le _
      · exact (hwf.working_backed hp).size_le
    rw [hcarried]
    exact h.keeps _ (by omega) hold
  · change r.2.size ≤ (r.1.bytes i).length
    simp only [hsize, hbytes, overwrite_length, hlen]
    omega
  · rintro j hj
    cases hj
    simpa [r, appendUserData] using h.live
  · intro j hj hp
    obtain ⟨hji, hjl, hjb⟩ := h.others j hj hp
    have hij : Ptr.block i ≠ .block j := fun he => hji (by cases he; rfl)
    refine ⟨hij, by simpa [r, appendUserData] using hjl, ?_⟩
    simp only [r, appendUserData, Heap.store_bytes_of_ne _ hij, hjb]

/-- The allocation is refused and nothing moved, or the append goes through. -/
theorem grow_cases {s : DriverState} (hwf : DeviceWf s) (call : WriteCall) :
    (0 < s.working.size+call.count ∧ growWorkingEntry s call = (s.heap, .null)) ∨
      ∃ heap p, growWorkingEntry s call = (heap, p) ∧ p ≠ .null ∧
        Appended s call (appendUserData heap p s.working.size call).1
          (appendUserData heap p s.working.size call).2 := by
  have hcount := call.count_lt
  have hwork := hwf.working_lt
  have hcop := call.copied_le
  have hn : sizeT (s.working.size+call.count) = s.working.size+call.count :=
    sizeT_of_lt (by simp only [WriteCall.count]; omega)
  by_cases hz : s.working.size+call.count = 0
  · -- an empty request frees the old block and yields the zero-size pointer
    have hdata : call.data = [] := by
      apply List.eq_nil_of_length_eq_zero
      rw [WriteCall.data_length]
      omega
    have hsz : s.working.size = 0 := by omega
    have hcz : call.copied = 0 := by omega
    have hg : growWorkingEntry s call = (s.heap.kfree s.working.buffptr, .zeroSize) := by
      simp only [growWorkingEntry]
      rw [hn, hz, Heap.krealloc_zero]
    have hcarried : carriedBytes s call = [] := by
      rw [carriedBytes, hg]
      exact List.take_nil
    refine Or.inr ⟨s.heap.kfree s.working.buffptr, .zeroSize, hg, by simp, ?_⟩
    refine ⟨by simp [hcarried, hsz], fun _ => ?_, ?_, ?_, iff_of_true rfl hz,
      ⟨by simp [appendUserData], ?_⟩, ?_, ?_⟩
    · simp [hcarried, pendingBytes, entryBytes, hsz]
    · simp [hcarried, entryBytes, appendUserData, Heap.contents, hdata]
    · simp [appendUserData, hsz, hcz, sizeT]
    · simp [appendUserData, hsz, hcz, sizeT]
    · simp [appendUserData]
    · intro j hj hp
      refine ⟨by simp [appendUserData], ?_, by simp [appendUserData, Heap.store]⟩
      simpa [appendUserData, Heap.store] using Heap.mem_kfree_live.mpr ⟨hj, hp⟩
  · have hlive : ∀ i, s.working.buffptr = .block i → i ∈ s.heap.live :=
      fun i hi => hwf.owned_live i (mem_owned.mpr (Or.inr hi))
    have hgrow : growWorkingEntry s call =
        s.heap.krealloc s.working.buffptr (s.working.size+call.count) call.alloc := by
      simp only [growWorkingEntry]
      rw [hn]
    rcases Heap.krealloc_spec (Nat.pos_of_ne_zero hz) hlive call.alloc with h | ⟨heap, i, h, hr⟩
    · exact Or.inl ⟨Nat.pos_of_ne_zero hz, hgrow.trans h⟩
    · have hg := hgrow.trans h
      exact Or.inr ⟨heap, .block i, hg, by simp, appended_of_regrown hwf call hg hz hr⟩

end ProvenAesd.Driver
