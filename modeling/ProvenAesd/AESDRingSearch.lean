import ProvenAesd.AESDReadCases

/-! What the offset search over the ring returns for every `size_t`, and which
slots it looks at on the way. -/
namespace ProvenAesd.Driver
open BoundedQueue ConcatOffset Mealy AesdCircularBuffer

/-- The loop of the search, with the slots it visits in order. -/
def findTrace (buffer : AesdCircularBuffer) (charOffset endindex : ℕ) :
    (fuel index curRunningOffset : ℕ) → List ℕ × Option FindResult
  | 0, _, _ => ([], none)
  | fuel+1, index, curRunningOffset =>
    let prevRunningOffset := curRunningOffset
    let curRunningOffset := sizeT (curRunningOffset+(buffer.slot index).size)
    if sizeT (charOffset+1) ≤ curRunningOffset then
      ([index], some (some (index, sizeSub charOffset prevRunningOffset)))
    else
      let next := (index+1)%aesdcharMaxWriteOperationsSupported
      if next ≠ endindex then
        Prod.map (index :: ·) id (findTrace buffer charOffset endindex fuel next curRunningOffset)
      else ([index], some none)

/-- The whole search; an empty ring returns before the loop. -/
def searchTrace (buffer : AesdCircularBuffer) (charOffset : ℕ) : List ℕ × Option FindResult :=
  if buffer.full = false ∧ buffer.inOffs = buffer.outOffs then ([], some none)
  else
    findTrace buffer charOffset buffer.inOffs aesdcharMaxWriteOperationsSupported buffer.outOffs 0

theorem findTrace_snd (buffer : AesdCircularBuffer) (p endindex : ℕ) (fuel : ℕ) :
    ∀ index cur, (findTrace buffer p endindex fuel index cur).2 =
      findLoop buffer p endindex fuel index cur := by
  induction fuel with
  | zero =>
    intro index cur
    rfl
  | succ fuel ih =>
    intro index cur
    simp only [findTrace, findLoop]
    by_cases hfound : sizeT (p+1) ≤ sizeT (cur+(buffer.slot index).size)
    · rw [if_pos hfound, if_pos hfound]
    · rw [if_neg hfound, if_neg hfound]
      by_cases hnext : (index+1)%aesdcharMaxWriteOperationsSupported ≠ endindex
      · rw [if_pos hnext, if_pos hnext, ← ih]
        rfl
      · rw [if_neg hnext, if_neg hnext]

def searchAnswer (rtn : ℕ) : Option FindResult → Option EntryPtr × ℕ
  | some (some (index, offset)) => (some (.slot index), offset)
  | _ => (none, rtn)

theorem find_entry_eq_trace (buffer : AesdCircularBuffer) (p rtn : ℕ) :
    aesdCircularBufferFindEntryOffsetForFpos buffer p rtn =
      searchAnswer rtn (searchTrace buffer p).2 := by
  unfold aesdCircularBufferFindEntryOffsetForFpos searchTrace
  by_cases hempty : buffer.full = false ∧ buffer.inOffs = buffer.outOffs
  · rw [if_pos hempty, if_pos hempty]
    rfl
  · rw [if_neg hempty, if_neg hempty]
    cases hloop : findLoop buffer p buffer.inOffs aesdcharMaxWriteOperationsSupported
        buffer.outOffs 0 with
    | none => simp only [findTrace_snd, hloop, searchAnswer]
    | some result => cases result <;> simp only [findTrace_snd, hloop, searchAnswer]

namespace AesdCircularBuffer

def liveSlots (buffer : AesdCircularBuffer) : List ℕ := window id 10 buffer.outOffs buffer.liveCount

def olderTotal (buffer : AesdCircularBuffer) (i : ℕ) : ℕ :=
  ((buffer.liveEntries.map (·.size)).take i).sum

/-- The `i`-th oldest live entry holds the byte at offset `p` of the concatenation. -/
def HoldsOffset (buffer : AesdCircularBuffer) (p i : ℕ) : Prop :=
  ∃ h : i < buffer.liveEntries.length,
    buffer.olderTotal i ≤ p ∧ p < buffer.olderTotal i+buffer.liveEntries[i].size

end AesdCircularBuffer

theorem liveSlots_nodup (buffer : AesdCircularBuffer) : buffer.liveSlots.Nodup := by
  have hle := liveCount_le buffer
  apply List.Nodup.map_on _ List.nodup_range
  intro i hi j hj hij
  have hi' := List.mem_range.mp hi
  have hj' := List.mem_range.mp hj
  -- two places of a window that is no longer than the ring are different slots
  rcases Nat.lt_trichotomy i j with hlt | heq | hgt
  · exact absurd hij (ring_index_ne hlt (by omega))
  · exact heq
  · exact absurd hij.symm (ring_index_ne hgt (by omega))

/-- Whatever it looks for, the loop ends, and the slots it has visited are the
oldest live ones. The induction is on the slots left to visit. -/
theorem findTrace_visits (buffer : AesdCircularBuffer) (p : ℕ) :
    ∀ (m fuel start cur : ℕ), 0 < m → m ≤ 10 → m ≤ fuel →
      (findTrace buffer p ((start+m)%10) fuel (start%10) cur).1 <+: window id 10 start m ∧
      (findTrace buffer p ((start+m)%10) fuel (start%10) cur).2 ≠ none := by
  intro m
  induction m with
  | zero =>
    intro _ _ _ h
    omega
  | succ m ih =>
    intro fuel start cur _ hm hfuel
    obtain ⟨fuel, rfl⟩ : ∃ f, fuel = f+1 := ⟨fuel-1, by omega⟩
    have hone : [start%10] <+: window id 10 start (m+1) := by
      rw [window_cons]
      exact ⟨_, rfl⟩
    have hnext : (start%10+1)%aesdcharMaxWriteOperationsSupported = (start+1)%10 := by
      simp only [aesdcharMaxWriteOperationsSupported]
      omega
    rw [findTrace]
    simp only [hnext]
    split_ifs with hfound hgo
    · exact ⟨hone, by simp⟩
    · -- the loop goes on, so there is another live slot
      have hpos : 0 < m := by
        apply Nat.pos_of_ne_zero
        intro hzero
        exact hgo (by rw [hzero])
      have hend : start+(m+1) = start+1+m := by omega
      obtain ⟨hv, hr⟩ := ih fuel (start+1) (sizeT (cur+(buffer.slot (start%10)).size)) hpos
        (by omega) (by omega)
      rw [hend, window_cons]
      exact ⟨(List.prefix_cons_inj (start%10)).mpr hv, hr⟩
    · exact ⟨hone, by simp⟩

theorem searchTrace_visits {buffer : AesdCircularBuffer} (h : RingWf buffer) (p : ℕ) :
    (searchTrace buffer p).1 <+: buffer.liveSlots ∧ (searchTrace buffer p).2 ≠ none := by
  unfold searchTrace
  -- the first test of the search; a full ring has equal positions too
  by_cases hempty : buffer.full = false ∧ buffer.inOffs = buffer.outOffs
  · rw [if_pos hempty]
    exact ⟨List.nil_prefix, by simp⟩
  · have hv := findTrace_visits buffer p buffer.liveCount 10 buffer.outOffs 0
      (h.liveCount_pos hempty) (liveCount_le buffer) (liveCount_le buffer)
    rw [← h.inOffs_eq, Nat.mod_eq_of_lt h.outOffs_lt] at hv
    rw [if_neg hempty]
    exact hv

/-- What the search is documented to do: it ends after visiting live slots once
each, returns the one entry that holds the offset together with the rest of the
offset, and returns nothing when the offset is past the data. -/
structure FindExact (buffer : AesdCircularBuffer) (p rtn : ℕ) : Prop where
  traced : aesdCircularBufferFindEntryOffsetForFpos buffer p rtn =
    searchAnswer rtn (searchTrace buffer p).2
  ends : (searchTrace buffer p).2 ≠ none
  visits : (searchTrace buffer p).1 <+: buffer.liveSlots
  visits_once : (searchTrace buffer p).1.Nodup
  found : p < buffer.liveTotal → ∃ i, buffer.HoldsOffset p i ∧
    (∀ j, buffer.HoldsOffset p j → j = i) ∧
    buffer.liveEntries[i]? = some (buffer.slot ((buffer.outOffs+i)%10)) ∧
    aesdCircularBufferFindEntryOffsetForFpos buffer p rtn =
      (some (.slot ((buffer.outOffs+i)%10)), p-buffer.olderTotal i)
  absent : buffer.liveTotal ≤ p →
    aesdCircularBufferFindEntryOffsetForFpos buffer p rtn = (none, rtn)

theorem holdsOffset_iff {buffer : AesdCircularBuffer} {p i : ℕ} :
    buffer.HoldsOffset p i ↔
      locate (buffer.liveEntries.map (·.size)) p = some (i, p-buffer.olderTotal i) := by
  rw [locate_eq_some]
  constructor
  · rintro ⟨hi, hle, hlt⟩
    refine ⟨by simpa using hi, ?_, ?_⟩
    · rw [List.getElem_map]
      omega
    · change p = buffer.olderTotal i+(p-buffer.olderTotal i)
      omega
  · rintro ⟨hi, hlt, hp⟩
    rw [List.getElem_map] at hlt
    change p = buffer.olderTotal i+(p-buffer.olderTotal i) at hp
    exact ⟨by simpa using hi, by omega, by omega⟩

theorem findExact_of_lt {buffer : AesdCircularBuffer} (h : RingWf buffer)
    (hsum : buffer.liveTotal < 2^64) {p : ℕ} (hp : p+1 < 2^64) (rtn : ℕ) :
    FindExact buffer p rtn := by
  obtain ⟨hvisits, hends⟩ := searchTrace_visits h p
  have hfind := find_entry_locate h hp hsum rtn
  have honce := hvisits.sublist.nodup (liveSlots_nodup buffer)
  refine ⟨find_entry_eq_trace buffer p rtn, hends, hvisits, honce, ?_, ?_⟩
  · intro hlt
    cases hl : locate (buffer.liveEntries.map (·.size)) p with
    | none =>
      have hge : buffer.liveTotal ≤ p := locate_eq_none.mp hl
      omega
    | some io =>
      obtain ⟨i, o⟩ := io
      obtain ⟨hi, -, hsplit⟩ := locate_eq_some.mp hl
      have ho : o = p-buffer.olderTotal i := by
        change p = buffer.olderTotal i+o at hsplit
        omega
      subst ho
      have hi' : i < buffer.liveEntries.length := by simpa using hi
      rw [hl] at hfind
      refine ⟨i, holdsOffset_iff.mpr hl, ?_, ?_, hfind⟩
      · intro j hj
        have hboth := (holdsOffset_iff.mp hj).symm.trans hl
        exact congrArg Prod.fst (Option.some.inj hboth)
      · rw [slot_of_live hi', List.getElem?_eq_getElem hi']
  · intro hge
    rw [locate_eq_none.mpr hge] at hfind
    exact hfind

theorem findExact_of_empty (p rtn : ℕ) : FindExact aesdCircularBufferInit p rtn :=
  ⟨find_entry_eq_trace _ p rtn, by simp [searchTrace, aesdCircularBufferInit], List.nil_prefix, List.nodup_nil,
    fun h => absurd h (Nat.not_lt_zero p), fun _ => rfl⟩

/-- For the largest offset the comparison is with zero, and the oldest slot is
taken whatever its size. -/
theorem find_entry_largest {buffer : AesdCircularBuffer}
    (hne : ¬(buffer.full = false ∧ buffer.inOffs = buffer.outOffs)) (rtn : ℕ) :
    aesdCircularBufferFindEntryOffsetForFpos buffer (2^64-1) rtn =
      (some (.slot buffer.outOffs), sizeSub (2^64-1) 0) := by
  unfold aesdCircularBufferFindEntryOffsetForFpos
  rw [if_neg hne, findLoop]
  have hwrap : sizeT (2^64-1+1) = 0 := by decide
  simp only [hwrap, Nat.zero_le, if_true]

/-- The search does what it is documented to do for every offset but the largest
one, and for that one too as long as nothing has been added. -/
theorem find_entry_exact_iff (es : List AesdBufferEntry) (charOffset rtn : ℕ)
    (htotal : (ring.final aesdCircularBufferInit es).liveTotal < 2^64)
    (hoffset : charOffset < 2^64) :
    FindExact (ring.final aesdCircularBufferInit es) charOffset rtn ↔
      charOffset+1 < 2^64 ∨ es = [] := by
  obtain ⟨hwf, -, -⟩ := ring_run_queue es
  have hempty := (ring_refines_bounded_queue es).2.2.2.2.2.2.2
  constructor
  · intro hexact
    by_contra hnot
    rw [not_or] at hnot
    obtain ⟨hlast, hnonempty⟩ := hnot
    have hp : charOffset = 2^64-1 := by omega
    have hne : ¬((ring.final aesdCircularBufferInit es).full = false ∧
        (ring.final aesdCircularBufferInit es).inOffs =
          (ring.final aesdCircularBufferInit es).outOffs) :=
      fun h => hnonempty (hempty.mp ⟨h.2, h.1⟩)
    -- the offset is past the data, but an entry comes back
    have habsent := hexact.absent (by omega)
    rw [hp, find_entry_largest hne rtn] at habsent
    cases habsent
  · rintro (hlt | rfl)
    · exact findExact_of_lt hwf htotal hlt rtn
    · exact findExact_of_empty charOffset rtn

theorem find_entry_exact_iff_two :
    FindExact (ring.final aesdCircularBufferInit [⟨.block 0, 2⟩, ⟨.zeroSize, 0⟩]) 1 7 ↔
      1+1 < 2^64 ∨ [(⟨.block 0, 2⟩ : AesdBufferEntry), ⟨.zeroSize, 0⟩] = [] :=
  find_entry_exact_iff [⟨.block 0, 2⟩, ⟨.zeroSize, 0⟩] 1 7 (by decide) (by decide)

/-- One entry of one byte, searched at the largest offset. -/
theorem find_entry_past_the_end :
    (ring.final aesdCircularBufferInit [⟨.block 0, 1⟩]).liveTotal ≤ 2^64-1 ∧
      ¬FindExact (ring.final aesdCircularBufferInit [⟨.block 0, 1⟩]) (2^64-1) 0 := by
  have hpast : (ring.final aesdCircularBufferInit [⟨.block 0, 1⟩]).liveTotal ≤ 2^64-1 := by decide
  refine ⟨hpast, fun h => ?_⟩
  have hfind := h.absent hpast
  have hsome : (aesdCircularBufferFindEntryOffsetForFpos
      (ring.final aesdCircularBufferInit [⟨.block 0, 1⟩]) (2^64-1) 0).1 ≠ none := by decide
  exact hsome (congrArg Prod.fst hfind)

end ProvenAesd.Driver
