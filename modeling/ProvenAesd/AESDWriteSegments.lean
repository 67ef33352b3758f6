import ProvenAesd.AESDStoredLength
import ProvenAesd.AESDWriteConservation

/-! How a stream is cut into writes does not matter: the device depends on the
bytes written alone. -/
namespace ProvenAesd.Driver
open BoundedQueue LineStore Mealy AesdCircularBuffer DriverState

structure FilledBy (n : ℕ) (buffer : AesdCircularBuffer) : Prop where
  inOffs_eq : buffer.inOffs = n%10
  outOffs_eq : buffer.outOffs = if 10 ≤ n then n%10 else 0
  full_eq : buffer.full = decide (10 ≤ n)

theorem filledBy_init : FilledBy 0 aesdCircularBufferInit := ⟨rfl, rfl, rfl⟩

theorem add_entry_filledBy {n : ℕ} {buffer : AesdCircularBuffer} (h : FilledBy n buffer)
    (e : AesdBufferEntry) : FilledBy (n+1) (aesdCircularBufferAddEntry buffer e).1 := by
  obtain ⟨hin, hout, hfull⟩ := h
  by_cases hn : 10 ≤ n
  · rw [add_entry_full (by rw [hfull, decide_eq_true hn]), hin]
    have hn' : 10 ≤ n+1 := by omega
    refine ⟨Nat.mod_add_mod n 10 1, ?_, ?_⟩
    · rw [if_pos hn']
      exact Nat.mod_add_mod n 10 1
    · exact (decide_eq_true hn').symm
  · rw [if_neg hn] at hout
    rw [add_entry_room (by rw [hfull, decide_eq_false hn]), hin, hout]
    -- the ring is full from the tenth entry on, when `in_offs` is back at zero
    have hmeet : (n%10+1)%10 = 0 ↔ 10 ≤ n+1 := by omega
    refine ⟨Nat.mod_add_mod n 10 1, ?_, ?_⟩
    · change 0 = _
      split_ifs <;> omega
    · exact decide_eq_decide.mpr hmeet

theorem handedOver_filledBy {n : ℕ} {buffer : AesdCircularBuffer} (h : FilledBy n buffer)
    (e : AesdBufferEntry) : FilledBy (n+1) (handedOverRing buffer e) := by
  obtain ⟨o, ho⟩ := handedOverRing_eq buffer e
  obtain ⟨hin, hout, hfull⟩ := add_entry_filledBy h e
  rw [ho]
  exact ⟨hin, hout, hfull⟩

/-- A successful write of a whole chunk that has a newline at its end at most. -/
structure WholeChunk (s : DriverState) (call : ℕ × WriteCall) : Prop where
  alloc : KreallocOk s call.2
  whole : call.2.notCopied = 0
  nonempty : call.2.buf ≠ []
  newline_last : newline ∉ call.2.buf.dropLast

def written (calls : List (ℕ × WriteCall)) : List UInt8 := (calls.map fun c => c.2.buf).flatten

theorem WholeChunk.data_eq {s : DriverState} {call : ℕ × WriteCall} (h : WholeChunk s call) :
    call.2.data = call.2.buf := by
  rw [WriteCall.data, WriteCall.copied, h.whole]
  exact List.take_length

theorem WholeChunk.writeOk {s : DriverState} {call : ℕ × WriteCall} (h : WholeChunk s call) :
    WriteOk s call := by
  refine ⟨h.alloc, ?_⟩
  rw [← WriteCall.data_length, h.data_eq]
  exact List.length_pos_iff.mpr h.nonempty

/-- What the device is after the bytes `bytes`: the lines they complete went
through the ring, and the unfinished line is pending. -/
structure WrittenOut (s : DriverState) (bytes : List UInt8) : Prop where
  wf : DeviceWf s
  intact : s.Intact
  lines : s.liveBytes = (queue 10).final [] (cutLines newline bytes).1
  pending : s.pendingBytes = (cutLines newline bytes).2
  filled : FilledBy (cutLines newline bytes).1.length s.buffer

theorem writtenOut_init : WrittenOut aesdInitModule [] :=
  ⟨deviceWf_init, intact_init, rfl, rfl, filledBy_init⟩

theorem WrittenOut.write {s : DriverState} {bytes : List UInt8} (h : WrittenOut s bytes)
    {call : ℕ × WriteCall} (hcall : WholeChunk s call) :
    WrittenOut (writer.step s call).1 (bytes ++ call.2.buf) := by
  obtain ⟨hwf, hint, hlines, hpending, hfilled⟩ := h
  obtain ⟨hint', hwrite⟩ := write_refines hwf hint hcall.writeOk
  have hwf' : DeviceWf (writer.step s call).1 := (write_cases hwf call.1 call.2).1
  have hbuffer := write_buffer s call.1 call.2
  have hcut : cutLines newline (bytes ++ call.2.buf) =
      call.2.buf.foldl (feed newline) (cutLines newline bytes) := List.foldl_append
  -- the newline can only be the last byte, so one step of the cut does for the chunk
  rw [foldl_feed_piece hcall.nonempty hcall.newline_last] at hcut
  have hlast : (s.pendingBytes ++ call.2.buf).getLast? = call.2.buf.getLast? :=
    List.getLast?_append_of_ne_nil _ hcall.nonempty
  rw [hcall.data_eq] at hwrite
  by_cases hend : call.2.buf.getLast? = some newline
  · -- the chunk completes the pending line
    rw [LineStore.write_of_last (hlast.trans hend)] at hwrite
    obtain ⟨hstore, hreply⟩ := Prod.mk.inj hwrite
    have hcommitted : (aesdWrite s call.1 call.2).committed ≠ none := by
      have hsome := congrArg Reply.committed hreply
      change (aesdWrite s call.1 call.2).committed = some _ at hsome
      rw [hsome]
      exact Option.some_ne_none _
    rw [if_pos hend] at hcut
    refine ⟨hwf', hint', ?_, ?_, ?_⟩
    · have hlive : (writer.step s call).1.liveBytes = _ := congrArg Store.lines hstore
      rw [hlive, hcut, Machine.final_append, ← hlines, ← hpending]
      rfl
    · have hpend : (writer.step s call).1.pendingBytes = [] := congrArg Store.pending hstore
      rw [hpend, hcut]
    · rcases hbuffer with ⟨hnone, -⟩ | ⟨line, e, -, hover⟩
      · exact absurd hnone hcommitted
      · change FilledBy _ (aesdWrite s call.1 call.2).state.buffer
        rw [hover, hcut, List.length_append, List.length_singleton]
        exact handedOver_filledBy hfilled e
  -- the chunk only extends it
  · rw [LineStore.write_of_not_last (hlast ▸ hend)] at hwrite
    obtain ⟨hstore, hreply⟩ := Prod.mk.inj hwrite
    have hcommitted : (aesdWrite s call.1 call.2).committed = none := congrArg Reply.committed hreply
    rw [if_neg hend] at hcut
    refine ⟨hwf', hint', ?_, ?_, ?_⟩
    · have hlive : (writer.step s call).1.liveBytes = s.liveBytes := congrArg Store.lines hstore
      rw [hlive, hcut]
      exact hlines
    · have hpend : (writer.step s call).1.pendingBytes = _ := congrArg Store.pending hstore
      rw [hpend, hcut]
      exact congrArg (· ++ call.2.buf) hpending
    · rcases hbuffer with ⟨-, hkeep⟩ | ⟨line, e, hsome, -⟩
      · change FilledBy _ (aesdWrite s call.1 call.2).state.buffer
        rw [hkeep, hcut]
        exact hfilled
      · rw [hcommitted] at hsome
        cases hsome

theorem written_out {calls : List (ℕ × WriteCall)}
    (h : writer.Guarded WholeChunk aesdInitModule calls) :
    WrittenOut (writer.final aesdInitModule calls) (written calls) := by
  apply h.history (fun s cs _ => WrittenOut s (written cs)) writtenOut_init
  intro s cs _ call hout hcall
  have hsplit : written (cs ++ [call]) = written cs ++ call.2.buf := by simp [written]
  rw [hsplit]
  exact hout.write hcall

/-- The two devices agree on everything but the addresses of their buffers. -/
structure SameButPointers (s u : DriverState) : Prop where
  liveBytes_eq : s.liveBytes = u.liveBytes
  sizes_eq : s.buffer.liveEntries.map (·.size) = u.buffer.liveEntries.map (·.size)
  pendingBytes_eq : s.pendingBytes = u.pendingBytes
  size_eq : s.working.size = u.working.size
  inOffs_eq : s.buffer.inOffs = u.buffer.inOffs
  outOffs_eq : s.buffer.outOffs = u.buffer.outOffs
  full_eq : s.buffer.full = u.buffer.full
  bufLen_eq : s.buffer.bufLen = u.buffer.bufLen

/-- Two ways to cut the same bytes into writes leave the same device: the last
ten lines they complete, and the unfinished line. -/
theorem segmentation_irrelevant (calls calls' : List (ℕ × WriteCall))
    (h : writer.Guarded WholeChunk aesdInitModule calls)
    (h' : writer.Guarded WholeChunk aesdInitModule calls') (hsame : written calls = written calls') :
    SameButPointers (writer.final aesdInitModule calls) (writer.final aesdInitModule calls') ∧
    (writer.final aesdInitModule calls).liveBytes =
      (cutLines newline (written calls)).1.rtake 10 ∧
    (writer.final aesdInitModule calls).pendingBytes = (cutLines newline (written calls)).2 := by
  have hout := written_out h
  have hout' := written_out h'
  rw [← hsame] at hout'
  have hlive := hout.lines.trans hout'.lines.symm
  have hpending := hout.pending.trans hout'.pending.symm
  refine ⟨⟨hlive, ?_, hpending, ?_, ?_, ?_, ?_, ?_⟩, ?_, hout.pending⟩
  · rw [hout.wf.sizes_eq, hout'.wf.sizes_eq, hlive]
  · rw [size_of_intact hout.wf hout.intact, size_of_intact hout'.wf hout'.intact, hpending]
  · rw [hout.filled.inOffs_eq, hout'.filled.inOffs_eq]
  · rw [hout.filled.outOffs_eq, hout'.filled.outOffs_eq]
  · rw [hout.filled.full_eq, hout'.filled.full_eq]
  · rw [(writer_reachable calls).bufLen_eq, (writer_reachable calls').bufLen_eq, hlive]
  · rw [hout.lines, queue_final 10 (by decide)]
    rfl

/-- "ef\ng" in two writes and in four. -/
theorem segmentation_irrelevant_two_cuts :
    let calls := [(0, plainWrite [101, 102, 10] (by decide)), (3, plainWrite [103] (by decide))]
    let calls' := [(0, plainWrite [101] (by decide)), (0, plainWrite [102] (by decide)),
      (7, plainWrite [10] (by decide)), (1, plainWrite [103] (by decide))]
    SameButPointers (writer.final aesdInitModule calls) (writer.final aesdInitModule calls') := by
  intro calls calls'
  have hguard : writer.Guarded WholeChunk aesdInitModule calls := by
    refine ⟨⟨?_, rfl, ?_, ?_⟩, ⟨?_, rfl, ?_, ?_⟩, trivial⟩ <;> decide
  have hguard' : writer.Guarded WholeChunk aesdInitModule calls' := by
    refine ⟨⟨?_, rfl, ?_, ?_⟩, ⟨?_, rfl, ?_, ?_⟩, ⟨?_, rfl, ?_, ?_⟩, ⟨?_, rfl, ?_, ?_⟩, trivial⟩ <;>
      decide
  exact (segmentation_irrelevant calls calls' hguard hguard' rfl).1

end ProvenAesd.Driver
