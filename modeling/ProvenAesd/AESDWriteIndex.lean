import ProvenAesd.AESDWriteConservation

/-! The byte that `aesd_write` tests for a newline: when it is a byte of the
working entry, and what a call that transfers nothing does. -/
namespace ProvenAesd.Driver
open BlockHeap BoundedQueue Mealy DriverState

/-- The kernel memory and the working entry at the newline test. -/
def testedEntry (s : DriverState) (call : WriteCall) : Heap × AesdBufferEntry :=
  appendUserData (growWorkingEntry s call).1 (growWorkingEntry s call).2 s.working.size call

/-- `totalBufSize - 1`. -/
def testedIndex (s : DriverState) (call : WriteCall) : ℕ := sizeSub (testedEntry s call).2.size 1

/-- The call tests a byte of the working entry, and if it transfers nothing it
changes nothing. -/
structure LooksInside (s : DriverState) (fpos : ℕ) (call : WriteCall) (o : WriteOutcome) : Prop where
  index_lt : testedIndex s call < (entryBytes (testedEntry s call).1 (testedEntry s call).2).length
  committed_idle : call.copied = 0 → o.committed = none
  buffer_idle : call.copied = 0 → o.state.buffer = s.buffer
  liveBytes_idle : call.copied = 0 → o.state.liveBytes = s.liveBytes
  pendingBytes_idle : call.copied = 0 → o.state.pendingBytes = s.pendingBytes
  size_idle : call.copied = 0 → o.state.working.size = s.working.size
  fpos_idle : call.copied = 0 → o.fpos = fpos

/-- What holds between writes that get their memory: what is pending is there
byte by byte, and does not end a line. -/
structure OpenEnded (s : DriverState) : Prop where
  wf : DeviceWf s
  intact : s.Intact
  unfinished : s.pendingBytes.getLast? ≠ some newline

theorem openEnded_init : OpenEnded aesdInitModule :=
  ⟨deviceWf_init, intact_init, by decide⟩

theorem OpenEnded.write {s : DriverState} (h : OpenEnded s) {call : ℕ × WriteCall}
    (hok : KreallocOk s call.2) : OpenEnded (writer.step s call).1 := by
  have hwf : DeviceWf (writer.step s call).1 := (write_cases h.wf call.1 call.2).1
  rcases Nat.eq_zero_or_pos (s.working.size+call.2.count) with hzero | hpos
  · have hk := (write_faulted h.wf hok hzero call.1).kept
    refine ⟨hwf, fun hp => absurd hp hk.ne_null, ?_⟩
    change (aesdWrite s call.1 call.2).state.pendingBytes.getLast? ≠ some newline
    rw [hk.pendingBytes_eq]
    exact nofun
  have hacc := write_accepted h.wf hok hpos call.1
  rcases hacc.outcome with ⟨hopen, hk⟩ | ⟨-, hh⟩
  · refine ⟨hwf, fun hp => absurd hp hk.ne_null, ?_⟩
    change (aesdWrite s call.1 call.2).state.pendingBytes.getLast? ≠ some newline
    rw [hk.pendingBytes_eq]
    intro hlast
    apply hopen
    rw [EndsLine, hlast]
    rfl
  · have hnil : (writer.step s call).1.pendingBytes = [] := pendingBytes_of_reset hh.working_eq
    refine ⟨hwf, fun _ => congrArg AesdBufferEntry.size hh.working_eq, ?_⟩
    rw [hnil, List.getLast?_nil]
    exact (Option.some_ne_none newline).symm

theorem openEnded_run {calls : List (ℕ × WriteCall)}
    (h : writer.Guarded (fun s call => KreallocOk s call.2) aesdInitModule calls) :
    OpenEnded (writer.final aesdInitModule calls) :=
  h.invariant OpenEnded (fun _ _ hs hok => hs.write hok) openEnded_init

/-- The index is inside the entry unless there is no byte in it, and then it is
the largest `size_t`. -/
theorem testedIndex_lt_iff {s : DriverState} (hwf : DeviceWf s) {call : WriteCall}
    (hok : KreallocOk s call) :
    testedIndex s call < (entryBytes (testedEntry s call).1 (testedEntry s call).2).length ↔
      0 < s.working.size+call.copied := by
  rcases grow_cases hwf call with ⟨-, hg⟩ | ⟨heap, p, hg, -, happ⟩
  · exact absurd (by rw [hg]) hok
  · have htested : testedEntry s call = appendUserData heap p s.working.size call := by
      rw [testedEntry, hg]
    rw [← htested] at happ
    have hlt := contents_lt happ.live
    have hle := happ.backed.size_le
    rw [testedIndex, happ.backed.bytes_length, ← happ.size_eq]
    by_cases hz : (testedEntry s call).2.size = 0
    · rw [hz]
      decide
    · rw [sizeSub_of_le (by omega) (by omega)]
      omega

/-- A call that transfers nothing onto pending bytes leaves everything as it was. -/
theorem OpenEnded.idle {s : DriverState} (h : OpenEnded s) {call : WriteCall}
    (hok : KreallocOk s call) {fpos : ℕ} (hpos : fpos < 2^64) (hsize : 0 < s.working.size)
    (hzero : call.copied = 0) :
    (aesdWrite s fpos call).fpos = fpos ∧ Kept s (aesdWrite s fpos call) s.pendingBytes := by
  have hacc := write_accepted h.wf hok (Nat.add_pos_left hsize _) fpos
  have hdata : call.data = [] := by
    apply List.eq_nil_of_length_eq_zero
    rw [WriteCall.data_length, hzero]
  have hout := hacc.outcome
  rw [hacc.carried_eq h.intact, hdata, List.append_nil] at hout
  have hne : s.pendingBytes ≠ [] := by
    rw [← List.length_pos_iff, ← size_of_intact h.wf h.intact]
    exact hsize
  rw [endsLine_iff_of_ne_nil hne] at hout
  constructor
  · rw [hacc.fpos_eq, hzero]
    exact sizeT_of_lt hpos
  · rcases hout with ⟨-, hk⟩ | ⟨hend, -⟩
    · exact hk
    · exact absurd hend h.unfinished

/-- The byte tested for a newline is in the working entry, and a transfer of
nothing changes nothing, exactly when the entry holds a byte by then. -/
theorem write_looks_inside_iff (calls : List (ℕ × WriteCall))
    (h : writer.Guarded (fun s call => KreallocOk s call.2) aesdInitModule calls)
    (call : WriteCall) (hok : KreallocOk (writer.final aesdInitModule calls) call)
    (fpos : ℕ) (hpos : fpos < 2^64) :
    LooksInside (writer.final aesdInitModule calls) fpos call
        (aesdWrite (writer.final aesdInitModule calls) fpos call) ↔
      0 < (writer.final aesdInitModule calls).working.size+call.copied := by
  have hopen := openEnded_run h
  have hindex := testedIndex_lt_iff hopen.wf hok
  constructor
  · intro hlooks
    exact hindex.mp hlooks.index_lt
  · intro hsome
    have hidle (hzero : call.copied = 0) := hopen.idle hok hpos (by omega) hzero
    refine ⟨hindex.mpr hsome, ?_, ?_, ?_, ?_, ?_, fun hzero => (hidle hzero).1⟩
    · exact fun hzero => (hidle hzero).2.committed_eq
    · exact fun hzero => (hidle hzero).2.buffer_eq
    · exact fun hzero => (hidle hzero).2.liveBytes_eq
    · exact fun hzero => (hidle hzero).2.pendingBytes_eq
    · intro hzero
      rw [(hidle hzero).2.size_eq, size_of_intact hopen.wf hopen.intact]

def faultyWrite : WriteCall where
  buf := [107, 108, 109, 110, 10]
  notCopied := 5
  alloc := .grant true fun _ => 0
  stray := newline
  count_lt := by decide
  notCopied_le := by decide

theorem write_looks_inside_iff_pending_byte :
    let s := writer.final aesdInitModule [(0, plainWrite [107] (by decide))]
    LooksInside s 1 faultyWrite (aesdWrite s 1 faultyWrite) ↔
      0 < s.working.size+faultyWrite.copied :=
  write_looks_inside_iff [(0, plainWrite [107] (by decide))] ⟨by decide, trivial⟩ faultyWrite
    (by decide) 1 (by decide)

/-- Five bytes of which none is copied to the fresh device: the byte in front of the
buffer is tested, and an empty line is committed when it happens to be a newline. -/
theorem uncopied_write_looks_outside :
    KreallocOk aesdInitModule faultyWrite ∧ faultyWrite.count = 5 ∧ faultyWrite.copied = 0 ∧
      ¬LooksInside aesdInitModule 0 faultyWrite (aesdWrite aesdInitModule 0 faultyWrite) ∧
      testedIndex aesdInitModule faultyWrite = 2^64-1 ∧
      (aesdWrite aesdInitModule 0 faultyWrite).committed = some [] := by
  have hcommitted : (aesdWrite aesdInitModule 0 faultyWrite).committed = some [] := by decide
  refine ⟨by decide, rfl, rfl, fun hlooks => ?_, by decide, hcommitted⟩
  have hnone := hlooks.committed_idle rfl
  rw [hcommitted] at hnone
  cases hnone

end ProvenAesd.Driver
