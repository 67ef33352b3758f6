import ProvenAesd.AESDSeek

/-! Which commands and offsets the seek ioctl takes, against which of them are in
range. -/
namespace ProvenAesd.Driver
open BlockHeap BoundedQueue Mealy AesdCircularBuffer DriverState

/-- An empty slot is never the one the loop is looking for. -/
theorem adjustLoop_of_unused {buffer : AesdCircularBuffer} {c : ℕ}
    (hc : (buffer.slot c).buffptr = .null) (off : ℕ) (indices : List ℕ) :
    ∀ pos, adjustLoop buffer c off indices pos = .notFound := by
  induction indices with
  | nil =>
    intro pos
    rfl
  | cons index indices ih =>
    intro pos
    simp only [adjustLoop]
    by_cases hp : (buffer.slot index).buffptr ≠ .null
    · have hne : index ≠ c := by
        rintro rfl
        exact hp hc
      rw [if_pos hp, if_neg hne, ih]
    · rw [if_neg hp, ih]

/-- The pairs the driver takes. -/
def SeekTaken (s : DriverState) (c o : ℕ) : Prop :=
  c < s.buffer.liveCount ∧ o ≤ (s.buffer.slot c).size

instance (s : DriverState) (c o : ℕ) : Decidable (SeekTaken s c o) :=
  inferInstanceAs (Decidable (_ ∧ _))

theorem adjust_taken {s : DriverState} (hwf : DeviceWf s) {c o : ℕ} (ho : o < 2^32) (fpos : ℕ)
    (h : SeekTaken s c o) : (aesdAdjustFileOffset s fpos c o).retval = 0 := by
  rw [adjust_eq hwf h.1 o fpos ho, if_neg (by have := h.2; omega)]

/-- The position it goes to is among the stored bytes or right behind them. -/
theorem adjust_fpos_lt {s : DriverState} (hwf : DeviceWf s) {c o : ℕ} (ho : o < 2^32) (fpos : ℕ)
    (h : SeekTaken s c o) : (aesdAdjustFileOffset s fpos c o).fpos < 2^63 := by
  obtain ⟨hlive, hoff⟩ := h
  have hlt : (slotSizes s.buffer (c+1)).sum < 2^63 := slotSizes_sum_lt hwf hlive
  have hsum : (slotSizes s.buffer (c+1)).sum =
      (slotSizes s.buffer c).sum+(s.buffer.slot c).size := by
    rw [slotSizes, List.range_succ, List.map_append, List.sum_append]
    exact congrArg _ (List.sum_singleton)
  rw [adjust_eq hwf hlive o fpos ho, if_neg (by omega)]
  change (slotSizes s.buffer c).sum+o < 2^63
  omega

/-- Whatever else it is asked for it refuses, and leaves the position alone. -/
theorem adjust_refused {s : DriverState} (hwf : DeviceWf s) {c o : ℕ} (ho : o < 2^32) (fpos : ℕ)
    (h : ¬SeekTaken s c o) :
    (aesdAdjustFileOffset s fpos c o).retval = -EINVAL ∧
      (aesdAdjustFileOffset s fpos c o).fpos = fpos := by
  by_cases hlive : c < s.buffer.liveCount
  · have hoff : o > (s.buffer.slot c).size := by
      by_contra hle
      exact h ⟨hlive, by omega⟩
    rw [adjust_eq hwf hlive o fpos ho, if_pos hoff]
    exact ⟨rfl, rfl⟩
  · by_cases hten : c ≥ 10
    · rw [aesdAdjustFileOffset, if_pos hten]
      exact ⟨rfl, rfl⟩
    · have hslot : (s.buffer.slot c).buffptr = .null := by
        rw [slot_of_not_live hwf.ring hwf.fills (by omega) (by omega)]
        rfl
      rw [aesdAdjustFileOffset, if_neg hten]
      simp only [adjustLoop_of_unused hslot]
      split_ifs <;> exact ⟨rfl, rfl⟩

def OutOfRange (s : DriverState) (c o : ℕ) : Prop :=
  ∀ line, s.liveBytes[c]? = some line → line.length ≤ o

structure Rejected (s : DriverState) (fpos : ℕ) (seekto : AesdSeekto) : Prop where
  retval_eq :
    (aesdAdjustFileOffset s fpos seekto.writeCmd.toNat seekto.writeCmdOffset.toNat).retval = -EINVAL
  fpos_eq :
    (aesdAdjustFileOffset s fpos seekto.writeCmd.toNat seekto.writeCmdOffset.toNat).fpos = fpos
  state_eq : (driver.step s (.ioctl fpos aesdcharIocseekto (some seekto))).1 = s

theorem rejected_iff {s : DriverState} (hwf : DeviceWf s) (fpos : ℕ) (seekto : AesdSeekto) :
    Rejected s fpos seekto ↔ ¬SeekTaken s seekto.writeCmd.toNat seekto.writeCmdOffset.toNat := by
  constructor
  · intro hrej htaken
    have hret := hrej.retval_eq
    rw [adjust_taken hwf seekto.writeCmdOffset.toNat_lt fpos htaken] at hret
    cases hret
  · intro hnot
    obtain ⟨hret, hfpos⟩ := adjust_refused hwf seekto.writeCmdOffset.toNat_lt fpos hnot
    exact ⟨hret, hfpos, rfl⟩

/-- An out-of-range seek is rejected exactly when there is no command for it in
the slots either, or the one in slot `c` is shorter than `o`. -/
theorem seek_rejects_iff {s : DriverState} (hs : Reachable s) (fpos : ℕ) (seekto : AesdSeekto) :
    (OutOfRange s seekto.writeCmd.toNat seekto.writeCmdOffset.toNat → Rejected s fpos seekto) ↔
      ¬OutOfRange s seekto.writeCmd.toNat seekto.writeCmdOffset.toNat ∨
      s.buffer.liveCount ≤ seekto.writeCmd.toNat ∨
      (s.buffer.slot seekto.writeCmd.toNat).size < seekto.writeCmdOffset.toNat := by
  rw [rejected_iff hs.wf, imp_iff_not_or]
  apply or_congr_right
  rw [SeekTaken, not_and_or, not_lt, not_le]

/-- Two stored lines, and a seek far behind the second. -/
theorem seek_rejects_iff_two_lines :
    let s := driver.final aesdInitModule
      [.write 0 (plainWrite [134, 10] (by decide)), .write 2 (plainWrite [135, 136, 10] (by decide))]
    (OutOfRange s 1 9 → Rejected s 0 ⟨1, 9⟩) ↔
      ¬OutOfRange s 1 9 ∨ s.buffer.liveCount ≤ 1 ∨ (s.buffer.slot 1).size < 9 :=
  seek_rejects_iff ⟨_, rfl⟩ 0 ⟨1, 9⟩

/-- A line of two bytes, and a seek to the byte behind it. -/
theorem seek_behind_the_end :
    let s := driver.final aesdInitModule [.write 0 (plainWrite [123, 10] (by decide))]
    Reachable s ∧ OutOfRange s 0 2 ∧ ¬Rejected s 0 ⟨0, 2⟩ ∧
      (aesdAdjustFileOffset s 0 0 2).retval = 0 ∧ (aesdAdjustFileOffset s 0 0 2).fpos = 2 := by
  intro s
  have hret : (aesdAdjustFileOffset s 0 0 2).retval = 0 := by decide
  refine ⟨⟨_, rfl⟩, fun line hline => ?_, fun hrej => ?_, hret, by decide⟩
  · have hfirst : s.liveBytes[0]? = some [123, 10] := by decide
    rw [hfirst] at hline
    obtain rfl := Option.some.inj hline
    exact le_rfl
  · have hneg := hrej.retval_eq
    change (aesdAdjustFileOffset s 0 0 2).retval = -EINVAL at hneg
    rw [hret] at hneg
    cases hneg

end ProvenAesd.Driver
