import ProvenAesd.AESDReadStream

/-! `buf_len`, which `add_entry` keeps up to date by sums and differences, against
the bytes that reads find, and the seeks that rely on it. -/
namespace ProvenAesd.Driver
open BoundedQueue Mealy AesdCircularBuffer DriverState

/-- `buf_len` is the number of live bytes, as far as a `size_t` can tell. -/
def LengthKept (buffer : AesdCircularBuffer) : Prop := buffer.bufLen = sizeT buffer.liveTotal

theorem add_entry_length {buffer : AesdCircularBuffer} (hwf : RingWf buffer)
    (h : LengthKept buffer) (e : AesdBufferEntry) :
    LengthKept (aesdCircularBufferAddEntry buffer e).1 := by
  have hlive : (aesdCircularBufferAddEntry buffer e).1.liveEntries =
      (push 10 buffer.liveEntries e).1 := congrArg Prod.fst (add_entry_push hwf e).2
  unfold LengthKept liveTotal at *
  cases hfull : buffer.full with
  | false =>
    have hlt := RingWf.liveCount_lt hfull
    rw [push_of_lt (by rwa [liveEntries_length])] at hlive
    rw [hlive, List.map_append, List.sum_append, add_entry_room hfull]
    simp only [List.map_cons, List.map_nil, List.sum_cons, List.sum_nil, Nat.add_zero, h, sizeT]
    exact Nat.mod_add_mod _ _ _
  | true =>
    -- what is subtracted is the size of the oldest entry
    have hcount : buffer.liveCount = 10 := RingWf.liveCount_eq_ten.mpr hfull
    have hsplit : buffer.liveEntries = buffer.slot buffer.inOffs :: buffer.liveEntries.tail := by
      rw [liveEntries, hcount, window_cons, Nat.mod_eq_of_lt hwf.outOffs_lt, hwf.full_offs hfull]
      rfl
    have hold : (buffer.liveEntries.map (·.size)).sum =
        (buffer.slot buffer.inOffs).size+(buffer.liveEntries.tail.map (·.size)).sum := by
      rw [hsplit]
      rfl
    rw [push_of_le (by rw [liveEntries_length, hcount])] at hlive
    rw [hlive, List.map_append, List.sum_append, add_entry_full hfull]
    simp only [List.map_cons, List.map_nil, List.sum_cons, List.sum_nil, Nat.add_zero, h, hold,
      sizeSub, sizeT]
    omega

theorem Reachable.length_kept {s : DriverState} (hs : Reachable s) : LengthKept s.buffer := by
  apply hs.ring_invariant LengthKept rfl
  intro buffer e hwf _ h
  obtain ⟨o, ho⟩ := handedOverRing_eq buffer e
  rw [ho]
  exact add_entry_length hwf h e

theorem DeviceWf.liveTotal_eq {s : DriverState} (h : DeviceWf s) :
    s.buffer.liveTotal = s.liveBytes.flatten.length := by
  rw [liveTotal, h.sizes_eq, List.length_flatten]

theorem Reachable.bufLen_eq {s : DriverState} (hs : Reachable s) :
    s.buffer.bufLen = s.liveBytes.flatten.length := by
  have hlt := hs.wf.total_lt
  have hkept := hs.length_kept
  rw [LengthKept, hs.wf.liveTotal_eq, sizeT_of_lt (by omega)] at hkept
  exact hkept

/-- The slots beyond the live ones add nothing. -/
theorem slots_total {buffer : AesdCircularBuffer} (hwf : RingWf buffer) (h : RingFills buffer) :
    (foreachIndices.map fun i => (buffer.slot i).size).sum = buffer.liveTotal := by
  have hsum := ((h.slots_perm hwf).map (·.size)).sum_eq
  rw [List.map_map, List.map_append, List.sum_append, List.map_replicate, List.sum_replicate]
    at hsum
  exact hsum.trans (Nat.add_zero _)

/-- Reads that start at position `p` of the device deliver `bytes` and no more,
whatever their counts. -/
structure ReadsOut (s : DriverState) (p : ℕ) (bytes : List UInt8) : Prop where
  segment : ∀ counts : ℕ → ℕ, (∀ i, 0 < counts i) → ∀ n,
    delivered (stream.outputs ⟨s, p⟩ (readAll counts n)) <+: bytes
  whole : ∀ counts : ℕ → ℕ, (∀ i, 0 < counts i) → ∃ n,
    (∀ r ∈ stream.outputs ⟨s, p⟩ (readAll counts n), 1 ≤ r.retval) ∧
    delivered (stream.outputs ⟨s, p⟩ (readAll counts n)) = bytes ∧
    (stream.step (stream.final ⟨s, p⟩ (readAll counts n)) (.read ⟨counts n, false⟩)).2.retval = 0

theorem readAll_ok {counts : ℕ → ℕ} (hc : ∀ i, 0 < counts i) (n : ℕ) :
    ∀ t : StreamState, stream.Guarded StreamOk t (readAll counts n) := by
  induction n generalizing counts with
  | zero =>
    intro t
    trivial
  | succ n ih =>
    intro t
    rw [readAll_succ]
    exact ⟨hc 0, ih (fun i => hc (i+1)) _⟩

theorem readAll_stored (counts : ℕ → ℕ) (n : ℕ) :
    ∀ t : StreamState, (stream.final t (readAll counts n)).stored = t.stored := by
  induction n generalizing counts with
  | zero =>
    intro t
    rfl
  | succ n ih =>
    intro t
    rw [readAll_succ, Machine.final_cons, ih]
    exact congrArg List.flatten (read_liveBytes t.dev t.fpos _)

theorem reads_out {s : DriverState} (hwf : DeviceWf s) {p : ℕ} (hp : p < 2^63) :
    ReadsOut s p (s.liveBytes.flatten.drop p) := by
  have hwhole := reads_finish (s.liveBytes.flatten.length-p) ⟨s, p⟩
  refine ⟨fun counts hc n => ?_, fun counts hc => hwhole counts hwf hp hc le_rfl⟩
  have hsegment := (streamed_run hwf hp (readAll_ok hc n ⟨s, p⟩)).segment
  rw [readAll_stored] at hsegment
  exact hsegment

/-- Where a plain seek inside the data ends up. -/
theorem llseek_inside {s : DriverState} (hs : Reachable s) (kernel : FixedSizeLlseek) (fpos : ℕ)
    {off : ℤ} {whence : Whence} (hplain : whence.Plain off) {p : ℕ}
    (htarget : whence.target fpos off s.liveBytes.flatten.length = p)
    (hp : p ≤ s.liveBytes.flatten.length) :
    (aesdLlseek kernel s fpos off whence).retval = p ∧
      (aesdLlseek kernel s fpos off whence).fpos = p := by
  have hle : whence.target fpos off s.buffer.bufLen ≤ s.buffer.bufLen := by
    rw [hs.bufLen_eq, htarget]
    exact Int.ofNat_le.mpr hp
  have hge : 0 ≤ whence.target fpos off s.buffer.bufLen := by
    rw [hs.bufLen_eq, htarget]
    exact Int.natCast_nonneg p
  have hseek := kernel.accepts fpos off whence s.buffer.bufLen hplain hge hle
  rw [hs.bufLen_eq, htarget] at hseek
  simp only [aesdLlseek, hs.bufLen_eq, hseek, Int.toNat_natCast, and_self]

/-- A plain seek that succeeds has stayed inside the data. -/
theorem llseek_succeeded {s : DriverState} (hs : Reachable s) (kernel : FixedSizeLlseek) (fpos : ℕ)
    {off : ℤ} {whence : Whence} (hplain : whence.Plain off)
    (hok : 0 ≤ (aesdLlseek kernel s fpos off whence).retval) :
    ∃ p ≤ s.liveBytes.flatten.length,
      whence.target fpos off s.liveBytes.flatten.length = p := by
  by_cases hin : 0 ≤ whence.target fpos off s.buffer.bufLen ∧
      whence.target fpos off s.buffer.bufLen ≤ s.buffer.bufLen
  · rw [hs.bufLen_eq] at hin
    refine ⟨(whence.target fpos off s.liveBytes.flatten.length).toNat, ?_, ?_⟩ <;> omega
  · have hneg := (kernel.rejects fpos off whence s.buffer.bufLen hplain hin).1
    change 0 ≤ (kernel.seek fpos off whence s.buffer.bufLen).1 at hok
    omega

/-- `buf_len`, the slots, the seeks and the reads agree on what is stored. -/
structure LengthAgrees (kernel : FixedSizeLlseek) (s : DriverState) : Prop where
  live : s.buffer.bufLen = s.buffer.liveTotal
  slots : s.buffer.bufLen = (foreachIndices.map fun i => (s.buffer.slot i).size).sum
  sought : ∀ fpos off (whence : Whence), whence.Plain off →
    0 ≤ (aesdLlseek kernel s fpos off whence).retval →
    (aesdLlseek kernel s fpos off whence).retval = (aesdLlseek kernel s fpos off whence).fpos ∧
    ReadsOut s (aesdLlseek kernel s fpos off whence).fpos
      (s.liveBytes.flatten.drop (aesdLlseek kernel s fpos off whence).fpos)
  to_end : ∀ fpos, 0 ≤ (aesdLlseek kernel s fpos 0 .seekEnd).retval ∧
    ∀ q < 2^63, ∀ call : ReadCall, 0 < call.count →
      ((aesdRead s q call).retval = 0 ↔ (aesdLlseek kernel s fpos 0 .seekEnd).fpos ≤ q)
  last : ∀ fpos k : ℕ, 0 < k → k ≤ s.liveBytes.flatten.length →
    0 ≤ (aesdLlseek kernel s fpos (-k) .seekEnd).retval ∧
    ReadsOut s (aesdLlseek kernel s fpos (-k) .seekEnd).fpos (s.liveBytes.flatten.rtake k)

/-- In every state the device can reach, `buf_len` is what reads can deliver. -/
theorem buf_len_is_readable_length {s : DriverState} (hs : Reachable s)
    (kernel : FixedSizeLlseek) : LengthAgrees kernel s := by
  have hwf := hs.wf
  have htotal := hwf.total_lt
  have hend : Whence.seekEnd.Plain 0 := Or.inr (Or.inr rfl)
  constructor
  · rw [hs.bufLen_eq, hwf.liveTotal_eq]
  · rw [slots_total hwf.ring hwf.fills, hs.bufLen_eq, hwf.liveTotal_eq]
  · intro fpos off whence hplain hok
    obtain ⟨p, hp, htarget⟩ := llseek_succeeded hs kernel fpos hplain hok
    obtain ⟨hret, hfpos⟩ := llseek_inside hs kernel fpos hplain htarget hp
    rw [hret, hfpos]
    exact ⟨rfl, reads_out hwf (by omega)⟩
  · intro fpos
    have htarget : Whence.seekEnd.target fpos 0 s.liveBytes.flatten.length =
        (s.liveBytes.flatten.length : ℕ) := Int.add_zero _
    obtain ⟨hret, hfpos⟩ := llseek_inside hs kernel fpos hend htarget le_rfl
    rw [hret, hfpos]
    refine ⟨Int.natCast_nonneg _, fun q hq call hcount => ?_⟩
    have hq' : q+1 < 2^64 := by omega
    have hread : ReadExact ⟨s, q⟩ call (aesdRead s q call) := read_exact hwf hq' hcount
    exact hread.ended
  · intro fpos k hk hle
    have htarget : Whence.seekEnd.target fpos (-k) s.liveBytes.flatten.length =
        ((s.liveBytes.flatten.length-k : ℕ) : ℤ) := by
      rw [Int.ofNat_sub hle]
      rfl
    obtain ⟨hret, hfpos⟩ := llseek_inside hs kernel fpos (Or.inr (Or.inr rfl)) htarget
      (Nat.sub_le ..)
    rw [hret, hfpos]
    exact ⟨Int.natCast_nonneg _, reads_out hwf (by omega)⟩

/-- `fixed_size_llseek` as the kernel has it: three known origins, a seek by
nothing that only tells the position, and a new position within the size. -/
def fixedSizeLlseek : FixedSizeLlseek where
  seek fpos off whence size :=
    if whence = .seekCur ∧ off = 0 then (fpos, fpos)
    else if whence = .seekSet ∨ whence = .seekCur ∨ whence = .seekEnd then
      let target := whence.target fpos off size
      if 0 ≤ target ∧ target ≤ size then (target, target.toNat) else (-EINVAL, fpos)
    else (-EINVAL, fpos)
  accepts fpos off whence size hplain h0 hsize := by
    rcases hplain with rfl | ⟨rfl, hoff⟩ | rfl
    · simp [h0, hsize]
    · simp [h0, hsize, hoff]
    · simp [h0, hsize]
  rejects fpos off whence size hplain hout := by
    rcases hplain with rfl | ⟨rfl, hoff⟩ | rfl
    · simp [hout]
    · simp [hout, hoff]
    · simp [hout]

/-- A line and a pending byte: the pending byte does not count. -/
theorem buf_len_is_readable_length_one_line :
    LengthAgrees fixedSizeLlseek
      (driver.final aesdInitModule [.write 0 (plainWrite [116, 117, 10] (by decide)),
        .write 3 (plainWrite [118] (by decide))]) :=
  buf_len_is_readable_length ⟨_, rfl⟩ fixedSizeLlseek

end ProvenAesd.Driver
