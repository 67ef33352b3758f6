import ProvenAesd.AESDCircularBuffer
import ProvenAesd.BoundedQueue

/-! The ring as a queue of at most ten entries. -/
namespace ProvenAesd.Driver
open Mealy BoundedQueue

namespace AesdCircularBuffer

/-- The number of live entries, as the three position fields encode it. -/
def liveCount (buffer : AesdCircularBuffer) : ℕ :=
  if buffer.full = true then 10 else (buffer.inOffs+10-buffer.outOffs)%10

def liveEntries (buffer : AesdCircularBuffer) : List AesdBufferEntry :=
  window buffer.slot 10 buffer.outOffs buffer.liveCount

def liveTotal (buffer : AesdCircularBuffer) : ℕ := (buffer.liveEntries.map (·.size)).sum

end AesdCircularBuffer

open AesdCircularBuffer

structure RingWf (buffer : AesdCircularBuffer) : Prop where
  inOffs_lt : buffer.inOffs < 10
  outOffs_lt : buffer.outOffs < 10
  full_offs : buffer.full = true → buffer.inOffs = buffer.outOffs

theorem ringWf_init : RingWf aesdCircularBufferInit := ⟨by decide, by decide, by decide⟩

@[simp] theorem liveEntries_init : aesdCircularBufferInit.liveEntries = [] := rfl

@[simp] theorem liveEntries_length (buffer : AesdCircularBuffer) :
    buffer.liveEntries.length = buffer.liveCount := window_length ..

theorem liveCount_le (buffer : AesdCircularBuffer) : buffer.liveCount ≤ 10 := by
  unfold liveCount
  split
  · exact le_rfl
  · exact (Nat.mod_lt _ (by decide)).le

theorem RingWf.liveCount_eq_ten {buffer : AesdCircularBuffer} :
    buffer.liveCount = 10 ↔ buffer.full = true := by
  unfold liveCount
  split
  · simp [*]
  · have := Nat.mod_lt (buffer.inOffs+10-buffer.outOffs) (by decide : 0 < 10)
    exact iff_of_false (by omega) ‹_›

theorem liveCount_of_empty {buffer : AesdCircularBuffer}
    (h : buffer.full = false ∧ buffer.inOffs = buffer.outOffs) : buffer.liveCount = 0 := by
  simp [liveCount, h.1, h.2]

theorem RingWf.liveCount_lt {buffer : AesdCircularBuffer} (h : buffer.full = false) :
    buffer.liveCount < 10 := by
  have hle := liveCount_le buffer
  have hne : buffer.liveCount ≠ 10 := fun he => by simp [RingWf.liveCount_eq_ten.mp he] at h
  omega

/-- The two spellings of the number of slots between the offsets. -/
theorem ring_distance {i o : ℕ} (hi : i < 10) (ho : o < 10) :
    (i+10-o)%10 = if o ≤ i then i-o else i+10-o := by
  split
  · rw [show i+10-o = i-o+10 by omega, Nat.add_mod_right, Nat.mod_eq_of_lt (by omega)]
  · exact Nat.mod_eq_of_lt (by omega)

theorem RingWf.inOffs_eq {buffer : AesdCircularBuffer} (h : RingWf buffer) :
    buffer.inOffs = (buffer.outOffs+buffer.liveCount)%10 := by
  have hi := h.inOffs_lt
  have ho := h.outOffs_lt
  unfold liveCount
  split
  · rw [h.full_offs ‹_›]
    omega
  · rw [ring_distance hi ho]
    split <;> omega

theorem RingWf.liveCount_pos {buffer : AesdCircularBuffer} (h : RingWf buffer)
    (hne : ¬(buffer.full = false ∧ buffer.inOffs = buffer.outOffs)) : 0 < buffer.liveCount := by
  apply Nat.pos_of_ne_zero
  intro hzero
  have hin := h.inOffs_eq
  have hout := h.outOffs_lt
  apply hne
  constructor
  · rw [← Bool.not_eq_true]
    intro hfull
    have := RingWf.liveCount_eq_ten.mpr hfull
    omega
  · rw [hzero] at hin
    omega

theorem add_entry_full {buffer : AesdCircularBuffer} (h : buffer.full = true)
    (e : AesdBufferEntry) :
    aesdCircularBufferAddEntry buffer e =
      ({ entry := buffer.entry.setIfInBounds buffer.inOffs e
         overflowEntry := buffer.slot buffer.inOffs
         bufLen := sizeSub (sizeT (buffer.bufLen+e.size)) (buffer.slot buffer.inOffs).size
         inOffs := (buffer.inOffs+1)%10
         outOffs := (buffer.inOffs+1)%10
         full := true }, some .overflowEntry) := by
  simp [aesdCircularBufferAddEntry, h]

theorem add_entry_room {buffer : AesdCircularBuffer} (h : buffer.full = false)
    (e : AesdBufferEntry) :
    aesdCircularBufferAddEntry buffer e =
      ({ entry := buffer.entry.setIfInBounds buffer.inOffs e
         overflowEntry := buffer.slot buffer.inOffs
         bufLen := sizeT (buffer.bufLen+e.size)
         inOffs := (buffer.inOffs+1)%10
         outOffs := buffer.outOffs
         full := decide ((buffer.inOffs+1)%10 = buffer.outOffs) }, none) := by
  by_cases hmeet : (buffer.inOffs+1)%10 = buffer.outOffs <;>
    simp [aesdCircularBufferAddEntry, h, hmeet]

theorem slot_of_entry_eq {buffer b' : AesdCircularBuffer} {i : ℕ} (hi : i < 10)
    {e : AesdBufferEntry} (h : b'.entry = buffer.entry.setIfInBounds i e) :
    b'.slot = Function.update buffer.slot i e := by
  rw [← slot_setIfInBounds buffer hi e]
  unfold slot
  rw [h]

/-- One call on the ring is one push on the queue: it writes the slot behind the
live window, and a full ring hands out the entry it overwrites. -/
theorem add_entry_push {buffer : AesdCircularBuffer} (h : RingWf buffer) (e : AesdBufferEntry) :
    RingWf (aesdCircularBufferAddEntry buffer e).1 ∧
      ((aesdCircularBufferAddEntry buffer e).1.liveEntries,
        (aesdCircularBufferAddEntry buffer e).2.map
          (aesdCircularBufferAddEntry buffer e).1.deref) = push 10 buffer.liveEntries e := by
  have hin := h.inOffs_lt
  have hout := h.outOffs_lt
  cases hfull : buffer.full with
  | true =>
    -- the new entry takes the place of the oldest, and both offsets move on
    have hio := h.full_offs hfull
    have hcount : buffer.liveCount = 10 := RingWf.liveCount_eq_ten.mpr hfull
    have hhead : buffer.liveEntries.head? = some (buffer.slot buffer.inOffs) := by
      rw [liveEntries, hcount, window_cons, Nat.mod_eq_of_lt hout, hio]
      rfl
    have hw := window_update_full buffer.slot buffer.outOffs (by decide : 0 < 10) e
    rw [Nat.mod_eq_of_lt hout, ← hio] at hw
    rw [add_entry_full hfull, push_of_le (by rw [liveEntries_length, hcount]), hhead]
    refine ⟨⟨Nat.mod_lt _ (by decide), Nat.mod_lt _ (by decide), fun _ => rfl⟩, Prod.ext ?_ rfl⟩
    simp only [liveEntries, hcount, ← hio]
    rw [slot_of_entry_eq hin rfl, liveCount, if_pos rfl, window_mod, hw]
  | false =>
    -- the new entry goes behind the newest; `full` is set when `in_offs` meets `out_offs`
    have hlt := RingWf.liveCount_lt hfull
    have hcount : buffer.liveCount = if buffer.outOffs ≤ buffer.inOffs then
        buffer.inOffs-buffer.outOffs else buffer.inOffs+10-buffer.outOffs := by
      rw [← ring_distance hin hout]
      simp [liveCount, hfull]
    have hw := window_update_push buffer.slot buffer.outOffs hlt e
    rw [← h.inOffs_eq] at hw
    have hmod : (buffer.inOffs+1)%10 < 10 := Nat.mod_lt _ (by decide)
    rw [add_entry_room hfull, push_of_lt (by rwa [liveEntries_length])]
    refine ⟨⟨hmod, hout, fun hf => by simpa using hf⟩, Prod.ext ?_ rfl⟩
    simp only [liveEntries]
    rw [slot_of_entry_eq hin rfl, ← hw]
    congr 1
    simp only [liveCount, decide_eq_true_eq]
    rw [ring_distance hmod hout]
    change _ = buffer.liveCount+1
    rw [hcount]
    split_ifs <;> omega

/-- Until it is full the ring fills its slots from the first on, and the slots
not reached yet are as `memset` left them. -/
structure RingFills (buffer : AesdCircularBuffer) : Prop where
  outOffs_eq : buffer.full = false → buffer.outOffs = 0
  unused : buffer.full = false → ∀ i, buffer.inOffs ≤ i → buffer.slot i = default

theorem ringFills_init : RingFills aesdCircularBufferInit :=
  ⟨fun _ => rfl, fun _ i _ => slot_init i⟩

theorem add_entry_fills {buffer : AesdCircularBuffer} (hwf : RingWf buffer)
    (h : RingFills buffer) (e : AesdBufferEntry) :
    RingFills (aesdCircularBufferAddEntry buffer e).1 := by
  have hin := hwf.inOffs_lt
  cases hfull : buffer.full with
  | true =>
    rw [add_entry_full hfull]
    exact ⟨fun hf => by simp at hf, fun hf => by simp at hf⟩
  | false =>
    have hout := h.outOffs_eq hfull
    rw [add_entry_room hfull]
    refine ⟨fun _ => hout, fun hf i hi => ?_⟩
    -- the ring is not full afterwards, so `in_offs` has not wrapped
    have hne : (buffer.inOffs+1)%10 ≠ 0 := by simpa [hout] using hf
    dsimp only at hi
    rw [slot_of_entry_eq hin rfl, Function.update_of_ne (by omega)]
    exact h.unused hfull i (by omega)

/-- The live entries are those in the first slots, in one order or another. -/
theorem RingFills.live_perm {buffer : AesdCircularBuffer} (h : RingFills buffer) :
    buffer.liveEntries.Perm ((List.range buffer.liveCount).map buffer.slot) := by
  cases hfull : buffer.full with
  | true =>
    rw [liveEntries, RingWf.liveCount_eq_ten.mpr hfull]
    exact window_perm buffer.slot 10 buffer.outOffs
  | false =>
    have hlt := RingWf.liveCount_lt hfull
    apply List.Perm.of_eq
    apply List.map_congr_left
    intro i hi
    have hi' := List.mem_range.mp hi
    rw [h.outOffs_eq hfull, Nat.zero_add, Nat.mod_eq_of_lt (by omega)]

theorem slot_of_not_live {buffer : AesdCircularBuffer} (hwf : RingWf buffer)
    (h : RingFills buffer) {c : ℕ} (hc : buffer.liveCount ≤ c) (hten : c < 10) :
    buffer.slot c = default := by
  cases hfull : buffer.full with
  | true =>
    have := RingWf.liveCount_eq_ten.mpr hfull
    omega
  | false =>
    have hin := hwf.inOffs_eq
    have hcount := RingWf.liveCount_lt hfull
    rw [h.outOffs_eq hfull, Nat.zero_add, Nat.mod_eq_of_lt hcount] at hin
    exact h.unused hfull c (by omega)

/-- All ten slots are the live entries and slots as `memset` left them. -/
theorem RingFills.slots_perm {buffer : AesdCircularBuffer} (hwf : RingWf buffer)
    (h : RingFills buffer) :
    ((List.range 10).map buffer.slot).Perm
      (buffer.liveEntries ++ List.replicate (10-buffer.liveCount) default) := by
  have hle := liveCount_le buffer
  have hrange : List.range 10 = List.range buffer.liveCount ++
      (List.range (10-buffer.liveCount)).map (buffer.liveCount+·) := by
    rw [← List.range_add, Nat.add_sub_of_le hle]
  have hrest : (List.range (10-buffer.liveCount)).map (fun i => buffer.slot (buffer.liveCount+i)) =
      List.replicate (10-buffer.liveCount) default := by
    apply List.eq_replicate_iff.mpr
    refine ⟨by simp, fun e he => ?_⟩
    obtain ⟨i, hi, rfl⟩ := List.mem_map.mp he
    have hi' := List.mem_range.mp hi
    exact slot_of_not_live hwf h (by omega) (by omega)
  rw [hrange, List.map_append, List.map_map]
  change (_ ++ (List.range (10-buffer.liveCount)).map
    fun i => buffer.slot (buffer.liveCount+i)).Perm _
  rw [hrest]
  exact h.live_perm.symm.append_right _

/-- `aesd_circular_buffer_add_entry` as a machine; its output is the entry the
returned pointer leads to. -/
def ring : Machine AesdCircularBuffer AesdBufferEntry (Option AesdBufferEntry) where
  step buffer e :=
    ((aesdCircularBufferAddEntry buffer e).1,
      (aesdCircularBufferAddEntry buffer e).2.map (aesdCircularBufferAddEntry buffer e).1.deref)

theorem ring_run_queue (es : List AesdBufferEntry) :
    RingWf (ring.final aesdCircularBufferInit es) ∧
      (ring.final aesdCircularBufferInit es).liveEntries = (queue 10).final [] es ∧
      ring.outputs aesdCircularBufferInit es = (queue 10).outputs [] es := by
  have hg : ring.Guarded (fun _ _ => True) aesdCircularBufferInit es := ring.guarded_true _ _
  -- the queue simulates the ring, with the live entries as its state
  have hsim := hg.simulation (queue 10)
    (fun buffer q => RingWf buffer ∧ buffer.liveEntries = q) id id
    (by
      rintro buffer q e ⟨hwf, rfl⟩ -
      obtain ⟨hwf', hp⟩ := add_entry_push hwf e
      exact ⟨⟨hwf', congrArg Prod.fst hp⟩, congrArg Prod.snd hp⟩)
    ⟨ringWf_init, liveEntries_init⟩
  simp only [List.map_id] at hsim
  exact ⟨hsim.1.1, hsim.1.2, hsim.2⟩

/-- The ring keeps the last ten entries added, evicts the others once each in
the order they were added, and encodes empty and full as documented. -/
theorem ring_refines_bounded_queue (es : List AesdBufferEntry) :
    let buffer := ring.final aesdCircularBufferInit es
    let returned := ring.outputs aesdCircularBufferInit es
    window buffer.slot 10 buffer.outOffs (min es.length 10) = es.drop (es.length-10) ∧
    (∀ n, n < es.length → returned[n]? = some (if n < 10 then none else es[n-10]?)) ∧
    returned.reduceOption ++ window buffer.slot 10 buffer.outOffs (min es.length 10) = es ∧
    buffer.inOffs < 10 ∧ buffer.outOffs < 10 ∧
    (buffer.full = true ↔ 10 ≤ es.length) ∧
    (buffer.full = true → buffer.inOffs = buffer.outOffs) ∧
    (buffer.inOffs = buffer.outOffs ∧ buffer.full = false ↔ es = []) := by
  obtain ⟨hwf, hlive, hout⟩ := ring_run_queue es
  intro buffer returned
  have hfinal := queue_final 10 (by decide) es
  have hcount : buffer.liveCount = min es.length 10 := by
    rw [← liveEntries_length, hlive, hfinal, List.length_drop]
    omega
  have hwin : window buffer.slot 10 buffer.outOffs (min es.length 10) = buffer.liveEntries := by
    rw [← hcount]
    rfl
  refine ⟨?_, ?_, ?_, hwf.inOffs_lt, hwf.outOffs_lt, ?_, hwf.full_offs, ?_⟩
  · rw [hwin, hlive, hfinal]
  · intro n hn
    change (ring.outputs aesdCircularBufferInit es)[n]? = _
    rw [hout, queue_outputs 10 (by decide)]
    by_cases h10 : n < 10
    -- the first ten calls return NULL, the others the entry of ten calls before
    · rw [if_pos h10, List.getElem?_append_left (by simp; omega)]
      simp [hn, h10]
    · rw [if_neg h10, List.getElem?_append_right (by simp; omega), List.length_replicate,
        show n-min es.length 10 = n-10 by omega, List.getElem?_map,
        List.getElem?_take_of_lt (by omega), List.getElem?_eq_getElem (by omega)]
      rfl
  · change (ring.outputs aesdCircularBufferInit es).reduceOption ++ _ = es
    rw [hwin, hlive, hout]
    exact queue_conserves 10 (by decide) [] es
  · rw [← RingWf.liveCount_eq_ten, hcount]
    omega
  · have hin : buffer.inOffs = (buffer.outOffs+buffer.liveCount)%10 := hwf.inOffs_eq
    have hlo : buffer.outOffs < 10 := hwf.outOffs_lt
    rw [hcount] at hin
    have hfull : buffer.full = true ↔ 10 ≤ es.length := by
      rw [← RingWf.liveCount_eq_ten, hcount]
      omega
    rw [← List.length_eq_zero_iff, ← Bool.not_eq_true, hfull]
    rcases Nat.lt_or_ge (buffer.outOffs+es.length) 10 with hlt | hge <;> omega

end ProvenAesd.Driver
