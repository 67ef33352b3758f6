import ProvenAesd.AESDReadCases

/-! The ioctl that seeks to a command counts slots from index 0, and the read
counts them from `out_offs`: when the two agree. -/
namespace ProvenAesd.Driver
open BoundedQueue ConcatOffset Mealy AesdCircularBuffer DriverState

def slotSizes (buffer : AesdCircularBuffer) (c : ℕ) : List ℕ :=
  (List.range c).map fun i => (buffer.slot i).size

def olderSize (s : DriverState) (c : ℕ) : ℕ := ((s.liveBytes.map List.length).take c).sum

theorem sizeT_add_sizeT (a b : ℕ) : sizeT (sizeT a+b) = sizeT (a+b) := Nat.mod_add_mod a (2^64) b

/-- The loop adds up every slot before `c` and stops at `c`, when none of them is
empty. The induction is on the slots before `c` still to pass. -/
theorem adjustLoop_eq (buffer : AesdCircularBuffer) (c off m : ℕ)
    (hused : ∀ i ≤ c, (buffer.slot i).buffptr ≠ .null) (n : ℕ) :
    ∀ i pos, i+n = c → pos < 2^64 →
      adjustLoop buffer c off (List.range' i (n+1+m)) pos =
        if off > (buffer.slot c).size then .badOffset
        else .found (sizeT (pos+((List.range' i n).map fun j => (buffer.slot j).size).sum+off)) := by
  induction n with
  | zero =>
    intro i pos hi hpos
    obtain rfl : i = c := hi
    rw [show 0+1+m = m+1 by omega, List.range'_succ, adjustLoop]
    simp only [ne_eq, hused i le_rfl, not_false_eq_true, if_true]
    rfl
  | succ n ih =>
    intro i pos hi hpos
    have hic : i ≠ c := by omega
    have hi' : i ≤ c := by omega
    rw [show n+1+1+m = n+1+m+1 by omega, List.range'_succ, adjustLoop]
    simp only [ne_eq, hused i hi', not_false_eq_true, if_true, hic, if_false]
    rw [ih (i+1) _ (by omega) (sizeT_lt _), List.range'_succ, List.map_cons, List.sum_cons]
    congr 2
    rw [Nat.add_assoc (sizeT _), sizeT_add_sizeT, Nat.add_assoc pos, Nat.add_assoc, Nat.add_assoc]

theorem adjust_of_used {s : DriverState} {c : ℕ} (hc : c < 10) (off fpos : ℕ)
    (hne : ¬(s.buffer.full = false ∧ s.buffer.inOffs = s.buffer.outOffs))
    (hused : ∀ i ≤ c, (s.buffer.slot i).buffptr ≠ .null) :
    aesdAdjustFileOffset s fpos c off =
      if off > (s.buffer.slot c).size then ⟨-EINVAL, fpos⟩
      else ⟨0, sizeT ((slotSizes s.buffer c).sum+off)⟩ := by
  have hloop := adjustLoop_eq s.buffer c off (9-c) hused c 0 0 (Nat.zero_add c) (by decide)
  have hrange : List.range' 0 (c+1+(9-c)) = foreachIndices := by
    rw [show c+1+(9-c) = 10 by omega, ← List.range_eq_range']
    rfl
  rw [hrange, ← List.range_eq_range', Nat.zero_add] at hloop
  rw [aesdAdjustFileOffset, if_neg (by simpa using hc)]
  simp only [if_neg hne, hloop]
  by_cases hoff : off > (s.buffer.slot c).size
  · simp only [if_pos hoff]
  · simp only [if_neg hoff]
    rfl

theorem slotSizes_sum_lt {s : DriverState} (hwf : DeviceWf s) {c : ℕ} (hc : c ≤ s.buffer.liveCount) :
    (slotSizes s.buffer c).sum < 2^63 := by
  have htotal := hwf.total_lt
  rw [List.length_flatten, ← hwf.sizes_eq, (hwf.fills.live_perm.map _).sum_eq, List.map_map]
    at htotal
  apply Nat.lt_of_le_of_lt _ htotal
  -- the first `c` slots are some of the live ones
  apply List.Sublist.sum_le_sum
  · exact (List.range_sublist.mpr hc).map _
  · intro n _
    exact Nat.zero_le n

section Live

variable {s : DriverState} (hwf : DeviceWf s) {c : ℕ} (hc : c < s.buffer.liveCount)

include hwf hc

theorem live_slots_used : ∀ i ≤ c, (s.buffer.slot i).buffptr ≠ .null := by
  intro i hi
  have hmem : s.buffer.slot i ∈ s.buffer.liveEntries := by
    apply hwf.fills.live_perm.mem_iff.mpr
    exact List.mem_map_of_mem (List.mem_range.mpr (by omega))
  exact (hwf.live_backed _ hmem).ne_null

theorem adjust_eq (off fpos : ℕ) (hoff : off < 2^32) :
    aesdAdjustFileOffset s fpos c off =
      if off > (s.buffer.slot c).size then ⟨-EINVAL, fpos⟩
      else ⟨0, (slotSizes s.buffer c).sum+off⟩ := by
  have hlt := slotSizes_sum_lt hwf hc.le
  have hten := liveCount_le s.buffer
  rw [adjust_of_used (by omega) off fpos _ (live_slots_used hwf hc), sizeT_of_lt (by omega)]
  intro hempty
  have := liveCount_of_empty hempty
  omega

end Live

/-- What a seek to byte `o` of the `c`-th oldest command ought to do: it lands
behind the older commands, and a read from there returns that command from `o` on. -/
structure SeekAgrees (s : DriverState) (c o : ℕ) (r : SeekOutcome) : Prop where
  retval_eq : r.retval = 0
  fpos_eq : r.fpos = olderSize s c+o
  read_data : ∀ call : ReadCall, 0 < call.count → call.copyFault = false →
    1 ≤ (aesdRead s r.fpos call).retval ∧
      (aesdRead s r.fpos call).data = ((s.liveBytes[c]?.getD []).drop o).take call.count

/-- The commands in the slots before slot `c` take up as much room as the `c`
oldest commands, and the one in slot `c` has at least `o` bytes. -/
def SlotsAgree (s : DriverState) (c o : ℕ) : Prop :=
  (slotSizes s.buffer c).sum = olderSize s c ∧ o ≤ (s.buffer.slot c).size

/-- Until an entry has been evicted, slot order is the order of the commands. -/
theorem slotsAgree_of_outOffs {s : DriverState} (hwf : DeviceWf s) (h0 : s.buffer.outOffs = 0)
    {c o : ℕ} (hc : c < s.liveBytes.length) (ho : o ≤ s.liveBytes[c].length) :
    SlotsAgree s c o := by
  have hten := liveCount_le s.buffer
  have hlive : s.buffer.liveEntries = (List.range s.buffer.liveCount).map s.buffer.slot := by
    apply List.map_congr_left
    intro i hi
    have hi' := List.mem_range.mp hi
    rw [h0, Nat.zero_add, Nat.mod_eq_of_lt (by omega)]
  have hsizes := hwf.sizes_eq
  rw [hlive, List.map_map] at hsizes
  have hcount : c < s.buffer.liveCount := by simpa [liveBytes] using hc
  constructor
  · rw [olderSize, ← hsizes, ← List.map_take, List.take_range, min_eq_left hcount.le]
    rfl
  · have hget : ((List.range s.buffer.liveCount).map fun i => (s.buffer.slot i).size)[c]? =
        (s.liveBytes.map List.length)[c]? := congrArg (fun l : List ℕ => l[c]?) hsizes
    simp only [List.getElem?_map, List.getElem?_range hcount, List.getElem?_eq_getElem hc,
      Option.map_some, Option.some.injEq] at hget
    rw [hget]
    exact ho

theorem olderSize_lt {s : DriverState} {c o : ℕ} (hc : c < s.liveBytes.length)
    (ho : o < s.liveBytes[c].length) : olderSize s c+o < s.liveBytes.flatten.length := by
  have hsplit := congrArg List.length (drop_flatten s.liveBytes hc ho.le)
  rw [List.length_drop, List.length_append, List.length_drop] at hsplit
  change _-(olderSize s c+o) = _ at hsplit
  omega

/-- A read from the position of byte `o` of the `c`-th oldest command. -/
theorem read_at_command {s : DriverState} (hwf : DeviceWf s) {c o : ℕ}
    (hc : c < s.liveBytes.length) (ho : o < s.liveBytes[c].length) {call : ReadCall}
    (hn : 0 < call.count) (hf : call.copyFault = false) :
    1 ≤ (aesdRead s (olderSize s c+o) call).retval ∧
      (aesdRead s (olderSize s c+o) call).data = (s.liveBytes[c].drop o).take call.count := by
  have hbefore := olderSize_lt hc ho
  have htotal := hwf.total_lt
  rcases read_cases hwf (by omega : olderSize s c+o+1 < 2^64) call with he | hfault | hd
  · have := he.at_end
    omega
  · rw [hfault.fault] at hf
    cases hf
  · have hdata := hd.data_eq
    rw [olderSize, pieceAt_of_sum s.liveBytes hc ho] at hdata
    refine ⟨?_, hdata⟩
    rw [hd.retval_eq, olderSize, hdata, List.length_take, List.length_drop]
    omega

theorem adjust_agrees_iff {s : DriverState} (hwf : DeviceWf s) {c o : ℕ}
    (hc : c < s.liveBytes.length) (ho : o < s.liveBytes[c].length) (hoff : o < 2^32) (fpos : ℕ) :
    SeekAgrees s c o (aesdAdjustFileOffset s fpos c o) ↔ SlotsAgree s c o := by
  have hcount : c < s.buffer.liveCount := by simpa [liveBytes] using hc
  rw [adjust_eq hwf hcount o fpos hoff]
  constructor
  · intro h
    by_cases hbad : o > (s.buffer.slot c).size
    · rw [if_pos hbad] at h
      have hret := h.retval_eq
      cases hret
    · rw [if_neg hbad] at h
      exact ⟨Nat.add_right_cancel h.fpos_eq, by omega⟩
  · rintro ⟨hsum, hle⟩
    rw [if_neg (by omega), hsum]
    refine ⟨rfl, rfl, fun call hn hf => ?_⟩
    rw [List.getElem?_eq_getElem hc, Option.getD_some]
    exact read_at_command hwf hc ho hn hf

/-- The ioctl and the read agree on the position of a command exactly when the
slots before it and the commands before it hold the same number of bytes, as they do
until an entry has been evicted. -/
theorem seek_agrees_iff {s : DriverState} (hs : Reachable s) (seekto : AesdSeekto)
    (hc : seekto.writeCmd.toNat < s.liveBytes.length)
    (ho : seekto.writeCmdOffset.toNat < s.liveBytes[seekto.writeCmd.toNat].length) (fpos : ℕ) :
    (SeekAgrees s seekto.writeCmd.toNat seekto.writeCmdOffset.toNat
        (aesdIoctl s fpos aesdcharIocseekto (some seekto)) ↔
      SlotsAgree s seekto.writeCmd.toNat seekto.writeCmdOffset.toNat) ∧
    (s.buffer.outOffs = 0 →
      SlotsAgree s seekto.writeCmd.toNat seekto.writeCmdOffset.toNat) := by
  constructor
  · rw [aesdIoctl, if_pos rfl]
    exact adjust_agrees_iff hs.wf hc ho seekto.writeCmdOffset.toNat_lt fpos
  · intro h0
    exact slotsAgree_of_outOffs hs.wf h0 hc ho.le

def elevenLines : DriverState :=
  driver.final aesdInitModule
    (List.replicate 10 (.write 0 (plainWrite [120, 10] (by decide))) ++
      [.write 0 (plainWrite [120, 121, 10] (by decide))])

theorem seek_agrees_iff_first_line :
    SeekAgrees elevenLines 0 1 (aesdIoctl elevenLines 0 aesdcharIocseekto (some ⟨0, 1⟩)) ↔
      SlotsAgree elevenLines 0 1 :=
  (seek_agrees_iff ⟨_, rfl⟩ ⟨0, 1⟩ (by decide +kernel) (by decide +kernel) 0).1

/-- After the eleventh line slot 0 holds the newest command, and the second
oldest is looked for behind it. -/
theorem seek_after_wrap :
    Reachable elevenLines ∧ 1 < elevenLines.liveBytes.length ∧
      elevenLines.liveBytes[1]? = some [120, 10] ∧
      ¬SeekAgrees elevenLines 1 0 (aesdIoctl elevenLines 0 aesdcharIocseekto (some ⟨1, 0⟩)) := by
  refine ⟨⟨_, rfl⟩, by decide +kernel, by decide +kernel, fun h => ?_⟩
  have hpos : (aesdIoctl elevenLines 0 aesdcharIocseekto (some ⟨1, 0⟩)).fpos ≠
      olderSize elevenLines 1+0 := by decide +kernel
  exact hpos h.fpos_eq

end ProvenAesd.Driver
