import ProvenAesd.AESDWriteCases
import ProvenAesd.ConcatOffset

/-! The search over the ring as an offset search in the concatenated commands,
and the three things a call of `aesd_read` can do. -/
namespace ProvenAesd.Driver
open BlockHeap BoundedQueue ConcatOffset AesdCircularBuffer DriverState

/-- The loop walks the window of live slots once and stops where the running sum
passes the offset. The induction is on the slots left to visit. -/
theorem findLoop_locate (buffer : AesdCircularBuffer) (p : ℕ) (hp : p+1 < 2^64) :
    ∀ (m fuel start cur : ℕ), 0 < m → m ≤ 10 → m ≤ fuel → cur ≤ p →
      cur+((window buffer.slot 10 start m).map (·.size)).sum < 2^64 →
      findLoop buffer p ((start+m)%10) fuel (start%10) cur =
        some ((locate ((window buffer.slot 10 start m).map (·.size)) (p-cur)).map
          fun io => ((start+io.1)%10, io.2)) := by
  intro m
  induction m with
  | zero =>
    intro _ _ _ h
    omega
  | succ m ih =>
    intro fuel start cur _ hm hfuel hcur hsum
    obtain ⟨fuel, rfl⟩ : ∃ f, fuel = f+1 := ⟨fuel-1, by omega⟩
    rw [window_cons, List.map_cons, List.sum_cons] at hsum
    have hrun : sizeT (cur+(buffer.slot (start%10)).size) = cur+(buffer.slot (start%10)).size :=
      sizeT_of_lt (by omega)
    rw [window_cons, List.map_cons, findLoop]
    simp only [hrun, sizeT_of_lt hp]
    -- the loop compares `char_offset + 1` with the sum up to and including this slot
    by_cases hfound : p+1 ≤ cur+(buffer.slot (start%10)).size
    · rw [if_pos hfound, locate, if_pos (by omega), sizeSub_of_le (by omega) hcur]
      rfl
    · have hskip : ¬p-cur < (buffer.slot (start%10)).size := by omega
      have hnext : (start%10+1)%aesdcharMaxWriteOperationsSupported = (start+1)%10 := by
        simp only [aesdcharMaxWriteOperationsSupported]
        omega
      rw [if_neg hfound, locate, if_neg hskip, hnext]
      cases m with
      | zero =>
        -- the last live slot: the next index is the end index
        rw [if_neg (by simp)]
        rfl
      | succ m =>
        have hne : (start+1)%10 ≠ (start+(m+1+1))%10 := by
          have hm' : m+1 < 10 := by omega
          have h : (start+1+0)%10 ≠ (start+1+(m+1))%10 := ring_index_ne (Nat.succ_pos m) hm'
          rwa [Nat.add_zero, Nat.add_right_comm] at h
        rw [if_pos hne]
        have h := ih fuel (start+1) (cur+(buffer.slot (start%10)).size) (by omega) (by omega)
          (by omega) (by omega) (by omega)
        rw [show start+1+(m+1) = start+(m+1+1) by omega] at h
        rw [h, Option.map_map, show p-cur-(buffer.slot (start%10)).size =
          p-(cur+(buffer.slot (start%10)).size) by omega]
        congr 2
        funext io
        simp only [Function.comp_apply, Prod.mk.injEq, and_true]
        omega

/-- The search finds the entry that holds the offset in the concatenation of the
live entries, unless `char_offset + 1` wraps. -/
theorem find_entry_locate {buffer : AesdCircularBuffer} (h : RingWf buffer) {p : ℕ}
    (hp : p+1 < 2^64) (hsum : (buffer.liveEntries.map (·.size)).sum < 2^64) (rtn : ℕ) :
    aesdCircularBufferFindEntryOffsetForFpos buffer p rtn =
      match locate (buffer.liveEntries.map (·.size)) p with
      | none => (none, rtn)
      | some (i, o) => (some (.slot ((buffer.outOffs+i)%10)), o) := by
  have hin := h.inOffs_eq
  have hout := h.outOffs_lt
  unfold aesdCircularBufferFindEntryOffsetForFpos
  by_cases hempty : buffer.full = false ∧ buffer.inOffs = buffer.outOffs
  · have hcount := liveCount_of_empty hempty
    have hnil : buffer.liveEntries = [] := by
      rw [liveEntries, hcount, window_zero]
    rw [if_pos hempty, hnil]
    rfl
  · rw [if_neg hempty]
    have hloop := findLoop_locate buffer p hp buffer.liveCount 10 buffer.outOffs 0
      (h.liveCount_pos hempty) (liveCount_le buffer) (liveCount_le buffer) (Nat.zero_le _)
      (by rw [Nat.zero_add]; exact hsum)
    rw [← hin, Nat.mod_eq_of_lt hout, Nat.sub_zero] at hloop
    rw [hloop]
    change _ = (match locate ((window buffer.slot 10 buffer.outOffs buffer.liveCount).map (·.size)) p
      with
      | none => (none, rtn)
      | some (i, o) => (some (EntryPtr.slot ((buffer.outOffs+i)%10)), o))
    cases locate ((window buffer.slot 10 buffer.outOffs buffer.liveCount).map (·.size)) p <;> rfl

theorem slot_of_live {buffer : AesdCircularBuffer} {i : ℕ} (hi : i < buffer.liveEntries.length) :
    buffer.slot ((buffer.outOffs+i)%10) = buffer.liveEntries[i] := by
  simp only [liveEntries, window_getElem]

theorem sum_contents_eq (heap : Heap) (es : List AesdBufferEntry) :
    (es.map fun e => (heap.contents e.buffptr).length).sum =
      ((es.filterMap fun e => e.buffptr.id?).map fun i => (heap.bytes i).length).sum := by
  induction es with
  | nil => rfl
  | cons e es ih =>
    rw [List.map_cons, List.sum_cons, ih, List.filterMap_cons]
    cases e.buffptr <;> simp [Ptr.id?]

section Sizes

variable {s : DriverState} (hwf : DeviceWf s)

include hwf

theorem DeviceWf.sizes_eq : s.buffer.liveEntries.map (·.size) = s.liveBytes.map List.length := by
  rw [liveBytes, List.map_map]
  exact List.map_congr_left fun e he => (hwf.live_backed e he).bytes_length.symm

/-- The commands fit in the address space, since each has a block of its own. -/
theorem DeviceWf.total_lt : s.liveBytes.flatten.length < 2^63 := by
  rw [List.length_flatten, ← hwf.sizes_eq]
  calc
    (s.buffer.liveEntries.map (·.size)).sum ≤
        (s.buffer.liveEntries.map fun e => (s.heap.contents e.buffptr).length).sum :=
      List.sum_le_sum fun e he => (hwf.live_backed e he).size_le
    _ = ((liveIds s).map fun i => (s.heap.bytes i).length).sum :=
      sum_contents_eq s.heap s.buffer.liveEntries
    _ = ∑ i ∈ (liveIds s).toFinset, (s.heap.bytes i).length :=
      (List.sum_toFinset _ hwf.liveIds_nodup).symm
    _ ≤ ∑ i ∈ s.heap.live, (s.heap.bytes i).length := by
      apply Finset.sum_le_sum_of_subset
      intro i hi
      exact hwf.live_of_liveIds (List.mem_toFinset.mp hi)
    _ < 2^63 := s.heap.fits

end Sizes

/-- End of data: nothing is returned and nothing moves. -/
structure ReadEnd (s : DriverState) (fpos : ℕ) (o : ReadOutcome) : Prop where
  at_end : s.liveBytes.flatten.length ≤ fpos
  retval_eq : o.retval = 0
  fpos_eq : o.fpos = fpos
  data_eq : o.data = []

structure ReadFault (s : DriverState) (fpos : ℕ) (call : ReadCall) (o : ReadOutcome) : Prop where
  before_end : fpos < s.liveBytes.flatten.length
  fault : call.copyFault = true
  retval_eq : o.retval = -EFAULT
  fpos_eq : o.fpos = fpos
  data_eq : o.data = []

/-- The rest of the command that holds the position, up to the count. -/
structure ReadData (s : DriverState) (fpos : ℕ) (call : ReadCall) (o : ReadOutcome) : Prop where
  before_end : fpos < s.liveBytes.flatten.length
  no_fault : call.copyFault = false
  data_eq : o.data = pieceAt s.liveBytes fpos call.count
  retval_eq : o.retval = o.data.length
  fpos_eq : o.fpos = fpos+o.data.length

theorem take_drop_entryBytes {heap : Heap} {e : AesdBufferEntry} (o n : ℕ) :
    ((entryBytes heap e).drop o).take n =
      ((heap.contents e.buffptr).drop o).take (min n (e.size-o)) := by
  rw [entryBytes, List.drop_take, List.take_take]

theorem read_cases {s : DriverState} (hwf : DeviceWf s) {fpos : ℕ} (hp : fpos+1 < 2^64)
    (call : ReadCall) :
    ReadEnd s fpos (aesdRead s fpos call) ∨ ReadFault s fpos call (aesdRead s fpos call) ∨
      ReadData s fpos call (aesdRead s fpos call) := by
  have htotal := hwf.total_lt
  have hlen := List.length_flatten (L := s.liveBytes)
  have hpos : sizeT (sizeT fpos) = fpos := by
    rw [sizeT_of_lt (sizeT_lt fpos), sizeT_of_lt (by omega)]
  have hfind := find_entry_locate hwf.ring (p := fpos) (by omega)
    (by rw [hwf.sizes_eq, ← hlen]; omega) 0
  rw [hwf.sizes_eq] at hfind
  simp only [aesdRead, aesdReadLocked, aesdReadStore, hpos]
  cases hl : locate (s.liveBytes.map List.length) fpos with
  | none =>
    rw [hl] at hfind
    simp only [hfind]
    exact Or.inl ⟨by rw [hlen]; exact locate_eq_none.mp hl, rfl, rfl, rfl⟩
  | some io =>
    obtain ⟨i, o⟩ := io
    rw [hl] at hfind
    obtain ⟨hi, ho, hsum⟩ := locate_eq_some.mp hl
    have hbefore : fpos < s.liveBytes.flatten.length := by
      by_contra hge
      rw [locate_eq_none.mpr (by omega)] at hl
      cases hl
    have hi' : i < s.liveBytes.length := by simpa using hi
    have hie : i < s.buffer.liveEntries.length := by simpa [liveBytes] using hi
    let e := s.buffer.liveEntries[i]
    have hbytes : s.liveBytes[i] = entryBytes s.heap e := by
      simp only [liveBytes, List.getElem_map, e]
    have hsize : e.size = (entryBytes s.heap e).length :=
      (hwf.live_backed e (List.getElem_mem hie)).bytes_length.symm
    have hoe : o < e.size := by
      rw [hsize, ← hbytes]
      simpa using ho
    have hderef : s.buffer.deref (.slot ((s.buffer.outOffs+i)%10)) = e := slot_of_live hie
    -- the subtraction in `size_t` does not wrap
    have hesz : e.size < 2^63 := by
      have hle := List.le_sum_of_mem (List.getElem_mem hi)
      rw [List.getElem_map, hbytes, ← hsize, ← hlen] at hle
      omega
    have hret : (if sizeSub e.size o > call.count then call.count else sizeSub e.size o) =
        min call.count (e.size-o) := by
      rw [sizeSub_of_le (by omega) hoe.le]
      split <;> omega
    simp only [hfind, hderef, hret]
    cases hfault : call.copyFault with
    | true => exact Or.inr (Or.inl ⟨hbefore, hfault, rfl, rfl, rfl⟩)
    | false =>
      have hpiece : pieceAt s.liveBytes fpos call.count =
          ((s.heap.contents e.buffptr).drop o).take (min call.count (e.size-o)) := by
        simp only [pieceAt, hl, List.getElem?_eq_getElem hi', Option.getD_some, hbytes,
          take_drop_entryBytes]
      have hplen : (pieceAt s.liveBytes fpos call.count).length = min call.count (e.size-o) := by
        simp only [pieceAt, hl, List.getElem?_eq_getElem hi', Option.getD_some, hbytes,
          List.length_take, List.length_drop, ← hsize]
      have hfits := (pieceAt_segment s.liveBytes fpos call.count).length_le
      rw [List.length_drop, hplen] at hfits
      refine Or.inr (Or.inr ⟨hbefore, hfault, hpiece.symm, ?_, ?_⟩)
      · simp only [Bool.false_eq_true, if_false, ← hpiece, hplen]
      · simp only [Bool.false_eq_true, if_false, ← hpiece, hplen]
        exact sizeT_of_lt (by omega)

/-- A whole read changes `nextReadPosition` at most. -/
theorem read_state (s : DriverState) (fpos : ℕ) (call : ReadCall) :
    ∃ n, (aesdRead s fpos call).state = { s with aesdDevice.nextReadPosition := n } := by
  obtain ⟨n, hn⟩ := readLocked_state (aesdReadStore s fpos) fpos call
  exact ⟨n, hn⟩

theorem read_sameStore (s : DriverState) (fpos : ℕ) (call : ReadCall) :
    SameStore s (aesdRead s fpos call).state := by
  obtain ⟨n, hn⟩ := read_state s fpos call
  rw [hn]
  exact sameStore_position s n

end ProvenAesd.Driver
