import ProvenAesd.AESDWriteConservation

/-! A write that the allocator refuses: the working entry keeps its size and
loses its bytes. -/
namespace ProvenAesd.Driver
open BlockHeap Mealy DriverState

def committedBy (s : DriverState) (calls : List (ℕ × WriteCall)) : List (List UInt8) :=
  (writer.outputs s calls).filterMap (·.committed)

/-- A call that fails with `-ENOMEM` and is as if it had not been made. -/
structure FailedAtomic (s : DriverState) (fpos : ℕ) (o : WriteOutcome) : Prop where
  retval_eq : o.retval = -ENOMEM
  fpos_eq : o.fpos = fpos
  working_eq : o.state.working = s.working
  pendingBytes_eq : o.state.pendingBytes = s.pendingBytes
  buffer_eq : o.state.buffer = s.buffer
  liveBytes_eq : o.state.liveBytes = s.liveBytes
  later : ∀ calls, writer.Guarded WriteOk s calls → writer.Guarded WriteOk o.state calls →
    committedBy o.state calls = committedBy s calls

/-- A refused write is atomic exactly when there was no buffer to lose. -/
theorem failed_write_atomic_iff {s : DriverState} (hs : Reachable s) {call : WriteCall}
    (h : ¬KreallocOk s call) (fpos : ℕ) :
    FailedAtomic s fpos (aesdWrite s fpos call) ↔ s.working.buffptr = .null := by
  have href := write_refused hs.wf h fpos
  constructor
  · intro hatomic
    have hptr := congrArg AesdBufferEntry.buffptr hatomic.working_eq
    rw [href.state_eq] at hptr
    exact hptr.symm
  · intro hnull
    have hsame : (aesdWrite s fpos call).state = s := by
      rw [href.state_eq, ← hnull]
    refine ⟨href.retval_eq, href.fpos_eq, ?_, ?_, ?_, ?_, fun calls _ _ => ?_⟩ <;> rw [hsame]

def refusedWrite (buf : List UInt8) (hb : buf.length < 2^63) : WriteCall :=
  wholeWrite .refuse buf hb

/-- A line is stored and nothing is pending. -/
theorem failed_write_atomic_iff_stored_line :
    let s := driver.final aesdInitModule [.write 0 (plainWrite [131, 132, 10] (by decide))]
    FailedAtomic s 3 (aesdWrite s 3 (refusedWrite [133] (by decide))) ↔
      s.working.buffptr = .null :=
  failed_write_atomic_iff ⟨_, rfl⟩ (by decide) 3

def pendingAb : DriverState :=
  driver.final aesdInitModule [.write 0 (plainWrite [97, 98] (by decide))]

/-- A refused write in the middle of the line "abc\n" replaces its first two
bytes by what the next buffer happens to contain. -/
theorem failed_write_damages_line :
    let o := aesdWrite pendingAb 2 (refusedWrite [99] (by decide))
    let rest := [(2, plainWrite [99, 10] (by decide))]
    Reachable pendingAb ∧ ¬KreallocOk pendingAb (refusedWrite [99] (by decide)) ∧
      ¬FailedAtomic pendingAb 2 o ∧
      writer.Guarded WriteOk pendingAb rest ∧ writer.Guarded WriteOk o.state rest ∧
      committedBy pendingAb rest = [[97, 98, 99, 10]] ∧
      committedBy o.state rest = [[0, 0, 99, 10]] := by
  intro o rest
  have hbefore : committedBy pendingAb rest = [[97, 98, 99, 10]] := by decide
  have hafter : committedBy o.state rest = [[0, 0, 99, 10]] := by decide
  have hok : writer.Guarded WriteOk pendingAb rest := ⟨by decide, trivial⟩
  have hok' : writer.Guarded WriteOk o.state rest := ⟨by decide, trivial⟩
  refine ⟨⟨_, rfl⟩, by decide, fun hatomic => ?_, hok, hok', hbefore, hafter⟩
  have hsame := hatomic.later rest hok hok'
  rw [hbefore, hafter] at hsame
  exact absurd hsame (by decide)

end ProvenAesd.Driver
