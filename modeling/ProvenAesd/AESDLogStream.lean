import ProvenAesd.AESDLogRefinement

/-! What a read returns, in terms of everything written through any handle: a stretch
of it, at the position of the reader behind what has been evicted so far. -/
namespace ProvenAesd.Driver
open BoundedQueue ConcatOffset Mealy DriverState

variable {H : Type*}

def allWritten (calls : List (LogCall H)) : List UInt8 :=
  calls.flatMap fun | .write _ call => call.data | _ => []

def Log.evicted (l : Log H) : ℕ := (l.lines.take (l.lines.length-10)).flatten.length

theorem Log.total_eq (l : Log H) :
    l.lines.flatten.length = l.evicted+l.kept.flatten.length := by
  rw [Log.evicted, Log.kept, newest, ← List.length_append, ← List.flatten_append,
    List.take_append_drop]

variable [DecidableEq H]

theorem log_step_spelled {l : Log H} {calls : List (LogCall H)}
    (h : l.lines.flatten ++ l.pending = allWritten calls) (call : LogCall H) :
    let l' := (logOf.step l call).1
    l'.lines.flatten ++ l'.pending = allWritten (calls ++ [call]) := by
  have hsame (hnone : allWritten [call] = []) : allWritten (calls ++ [call]) = allWritten calls := by
    rw [allWritten, List.flatMap_append]
    change allWritten calls ++ allWritten [call] = _
    rw [hnone, List.append_nil]
  cases call with
  | openFile a =>
    rw [hsame rfl]
    exact h
  | read a call =>
    rw [hsame rfl]
    simp only [logOf, Log.read]
    split_ifs <;> exact h
  | write a call =>
    have hmore : allWritten (calls ++ [.write a call]) = allWritten calls ++ call.data := by
      simp [allWritten]
    rw [hmore, ← h]
    simp only [logOf, Log.write]
    -- the bytes go to the unfinished line, which a newline makes the last of the lines
    split_ifs
    · simp [Log.move]
    · simp [Log.move]
  | llseek a kernel off whence =>
    rw [hsame rfl]
    exact h
  | seekTo a seekto =>
    rw [hsame rfl]
    simp only [logOf, Log.seekTo]
    split
    · exact h
    · split_ifs <;> exact h

/-- The lines so far and the one being written are everything that was written. -/
theorem log_spelled (calls : List (LogCall H)) :
    (logOf.final logInit calls).lines.flatten ++ (logOf.final logInit calls).pending =
      allWritten calls := by
  apply (logOf.guarded_true logInit calls).history
    fun l calls _ => l.lines.flatten ++ l.pending = allWritten calls
  · rfl
  · intro l calls _ call h _
    exact log_step_spelled h call

/-- A read of the log, against the bytes of all its lines. -/
theorem Log.read_data (l : Log H) (a : H) (call : ReadCall) :
    let data := (l.read a call).2.data
    data <+: l.lines.flatten.drop (l.evicted+l.fpos a) ∧ data.length ≤ call.count ∧
      (data = [] ↔ l.lines.flatten.length ≤ l.evicted+l.fpos a ∨ call.copyFault = true ∨
        call.count = 0) := by
  have htotal := l.total_eq
  simp only [Log.read]
  by_cases hend : l.kept.flatten.length ≤ l.fpos a
  · rw [if_pos hend]
    exact ⟨List.nil_prefix, Nat.zero_le _, iff_of_true rfl (Or.inl (by omega))⟩
  · rw [if_neg hend]
    cases hfault : call.copyFault with
    | true => exact ⟨List.nil_prefix, Nat.zero_le _, iff_of_true rfl (Or.inr (Or.inl rfl))⟩
    | false =>
      simp only [Bool.false_eq_true, if_false]
      have hsegment := pieceAt_segment l.kept (l.fpos a) call.count
      have hle := pieceAt_length_le l.kept (l.fpos a) call.count
      -- positions count from the oldest line that is kept
      rw [Log.kept, newest_flatten_drop] at hsegment
      refine ⟨hsegment, hle, ?_⟩
      constructor
      · intro hnil
        right
        right
        by_contra hcount
        have hpos := pieceAt_length_pos (by omega : l.fpos a < l.kept.flatten.length)
          (Nat.pos_of_ne_zero hcount)
        rw [hnil] at hpos
        exact absurd hpos (Nat.lt_irrefl 0)
      · rintro (hbehind | hfault' | hcount)
        · omega
        · cases hfault'
        · exact List.eq_nil_of_length_eq_zero (by omega)

/-- What is read is what was written that far behind the evicted bytes, and no more than
was asked for. It is empty only at the end of the lines, or if the read asks for nothing
or faults. -/
theorem reads_follow_written (calls : List (LogCall H)) (h : files.Guarded CallOk filesInit calls)
    (a : H) (call : ReadCall) (hok : CallOk (files.final filesInit calls) (.read a call)) :
    let s := files.final filesInit calls
    let l := logOf.final logInit calls
    let data := (files.step s (.read a call)).2.data
    data <+: (allWritten calls).drop (l.evicted+s.fpos a) ∧ data.length ≤ call.count ∧
      (data = [] ↔ l.lines.flatten.length ≤ l.evicted+s.fpos a ∨ call.copyFault = true ∨
        call.count = 0) := by
  intro s l data
  obtain ⟨-, hr⟩ := driver_refines_log calls h
  obtain ⟨-, hreply⟩ := hr.read hok
  have hpos : s.fpos a = l.fpos a := congrFun hr.fpos_eq a
  have hdata : data = (l.read a call).2.data := congrArg LogReply.data hreply
  obtain ⟨hsegment, hle, hempty⟩ := l.read_data a call
  rw [hpos, hdata]
  refine ⟨hsegment.trans ?_, hle, hempty⟩
  rw [← log_spelled calls]
  exact (List.prefix_append _ _).drop _

/-- Eleven lines, the first of which is evicted under a reader that has read it. -/
def evictingCalls : List (LogCall Bool) :=
  .write false (plainWrite [33, 10] (by decide)) :: .read true ⟨8, false⟩ ::
    List.replicate 10 (.write false (plainWrite [34, 35, 10] (by decide)))

theorem reads_follow_written_evicted :
    let s := files.final filesInit evictingCalls
    let data := (files.step s (.read true ⟨8, false⟩)).2.data
    data = [10] ∧ data <+: (allWritten evictingCalls).drop (2+2) := by
  intro s data
  have h := reads_follow_written evictingCalls (by decide +kernel) true ⟨8, false⟩ (by decide +kernel)
  have hevicted : (logOf.final logInit evictingCalls).evicted = 2 := by decide +kernel
  have hpos : s.fpos true = 2 := by decide +kernel
  obtain ⟨hsegment, -, -⟩ := h
  change data <+: (allWritten evictingCalls).drop
    ((logOf.final logInit evictingCalls).evicted+s.fpos true) at hsegment
  rw [hevicted, hpos] at hsegment
  exact ⟨by decide +kernel, hsegment⟩

end ProvenAesd.Driver
