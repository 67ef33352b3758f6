import ProvenAesd.AESDWriteCases
import ProvenAesd.LineStore

/-! Successful writes make the device a line store: nothing written is lost,
duplicated or reordered on its way through the working entry and the ring. -/
namespace ProvenAesd.Driver
open BlockHeap BoundedQueue Mealy DriverState

/-- Calls of `aesd_write`, each with the file position of its handle. -/
def writer : Machine DriverState (ℕ × WriteCall) WriteOutcome where
  step s call := ((aesdWrite s call.1 call.2).state, aesdWrite s call.1 call.2)

/-- The allocation succeeds and at least one byte arrives. -/
def WriteOk (s : DriverState) (call : ℕ × WriteCall) : Prop :=
  KreallocOk s call.2 ∧ 0 < call.2.copied

instance (s : DriverState) (call : ℕ × WriteCall) : Decidable (WriteOk s call) :=
  inferInstanceAs (Decidable (_ ∧ _))

def lineStore (s : DriverState) : LineStore.Store UInt8 := ⟨s.liveBytes, s.pendingBytes⟩

theorem SameStore.lineStore_eq {s u : DriverState} (h : SameStore s u) :
    lineStore u = lineStore s := by
  simp only [lineStore, liveBytes, pendingBytes, h.heap, h.buffer, h.working]

theorem SameStore.intact {s u : DriverState} (h : SameStore s u) (hs : s.Intact) : u.Intact := by
  unfold Intact
  rw [← h.working]
  exact hs

def lineReply (o : WriteOutcome) : LineStore.Reply UInt8 := ⟨o.committed, o.lost⟩

theorem data_ne_nil {call : WriteCall} (h : 0 < call.copied) : call.data ≠ [] := by
  rw [← List.length_pos_iff, WriteCall.data_length]
  exact h

theorem pendingBytes_of_reset {s : DriverState} (h : s.working = ⟨.null, 0⟩) :
    s.pendingBytes = [] := by
  rw [pendingBytes, h]
  rfl

/-- One successful write is one write on the line store, behind the bytes that
the working entry has carried over. -/
theorem write_carried {s : DriverState} (hwf : DeviceWf s) {call : ℕ × WriteCall}
    (h : WriteOk s call) :
    (writer.step s call).1.Intact ∧
      (lineStore (writer.step s call).1, lineReply (writer.step s call).2) =
        LineStore.write newline 10 ⟨s.liveBytes, carriedBytes s call.2⟩ call.2.data := by
  have hacc := write_accepted hwf h.1 (something_of_copied s h.2) call.1
  have hne : carriedBytes s call.2 ++ call.2.data ≠ [] := by simp [data_ne_nil h.2]
  have hout := hacc.outcome
  rw [endsLine_iff_of_ne_nil hne] at hout
  rcases hout with ⟨hend, hk⟩ | ⟨hend, hh⟩
  · rw [LineStore.write_of_not_last hend]
    refine ⟨fun hp => absurd hp hk.ne_null, ?_⟩
    simp only [lineStore, lineReply, writer, hk.liveBytes_eq, hk.pendingBytes_eq, hk.committed_eq,
      hk.lost_eq]
  · rw [LineStore.write_of_last hend]
    refine ⟨fun _ => congrArg AesdBufferEntry.size hh.working_eq, ?_⟩
    simp only [lineStore, lineReply, writer, pendingBytes_of_reset hh.working_eq, hh.committed_eq,
      hh.liveBytes_eq, hh.lost_eq]

theorem write_refines {s : DriverState} (hwf : DeviceWf s) (hint : s.Intact)
    {call : ℕ × WriteCall} (h : WriteOk s call) :
    (writer.step s call).1.Intact ∧
      (lineStore (writer.step s call).1, lineReply (writer.step s call).2) =
        LineStore.write newline 10 (lineStore s) call.2.data := by
  have hcarried : carriedBytes s call.2 = s.pendingBytes :=
    (write_accepted hwf h.1 (something_of_copied s h.2) call.1).carried_eq hint
  have hwrite := write_carried hwf h
  rw [hcarried] at hwrite
  exact hwrite

theorem writer_final_driver (calls : List (ℕ × WriteCall)) (s : DriverState) :
    driver.final s (calls.map fun c => .write c.1 c.2) = writer.final s calls := by
  induction calls generalizing s with
  | nil => rfl
  | cons call calls ih => exact ih _

theorem writer_reachable (calls : List (ℕ × WriteCall)) :
    Reachable (writer.final aesdInitModule calls) :=
  ⟨_, writer_final_driver calls aesdInitModule⟩

theorem writer_refines_lineStore {calls : List (ℕ × WriteCall)} {s : DriverState}
    (h : writer.Guarded WriteOk s calls) (hwf : DeviceWf s) (hint : s.Intact) :
    (DeviceWf (writer.final s calls) ∧ (writer.final s calls).Intact ∧
      lineStore (writer.final s calls) =
        (LineStore.store newline 10).final (lineStore s) (calls.map fun c => c.2.data)) ∧
    (writer.outputs s calls).map lineReply =
      (LineStore.store newline 10).outputs (lineStore s) (calls.map fun c => c.2.data) := by
  refine h.simulation (LineStore.store newline 10)
    (fun s t => DeviceWf s ∧ s.Intact ∧ lineStore s = t) (fun c => c.2.data) lineReply ?_
    ⟨hwf, hint, rfl⟩
  rintro s t call ⟨hwf, hint, rfl⟩ hok
  obtain ⟨hint', heq⟩ := write_refines hwf hint hok
  exact ⟨⟨(write_cases hwf call.1 call.2).1, hint', congrArg Prod.fst heq⟩, congrArg Prod.snd heq⟩

theorem writer_retvals {calls : List (ℕ × WriteCall)} {s : DriverState}
    (h : writer.Guarded WriteOk s calls) :
    (writer.outputs s calls).map (·.retval) = calls.map fun c => (c.2.copied : ℤ) := by
  induction calls generalizing s with
  | nil => rfl
  | cons call calls ih =>
    obtain ⟨hok, hrest⟩ := h
    have hret : (writer.step s call).2.retval = call.2.copied := write_retval_of_ok hok.1 call.1
    rw [Machine.outputs_cons, List.map_cons, List.map_cons, ih hrest, hret]

theorem writer_accepted_bytes {calls : List (ℕ × WriteCall)} {s : DriverState}
    (h : writer.Guarded WriteOk s calls) :
    List.zipWith (fun (c : ℕ × WriteCall) (o : WriteOutcome) => c.2.buf.take o.retval.toNat)
      calls (writer.outputs s calls) = calls.map fun c => c.2.data := by
  induction calls generalizing s with
  | nil => rfl
  | cons call calls ih =>
    obtain ⟨hok, hrest⟩ := h
    have hret : (writer.step s call).2.retval = call.2.copied := write_retval_of_ok hok.1 call.1
    simp only [Machine.outputs_cons, List.zipWith_cons_cons, List.map_cons, ih hrest, hret]
    rfl

theorem filterMap_lineReply (outs : List WriteOutcome) :
    (outs.map lineReply).filterMap LineStore.Reply.committed = outs.filterMap (·.committed) ∧
      (outs.map lineReply).filterMap LineStore.Reply.lost = outs.filterMap (·.lost) := by
  simp only [List.filterMap_map]
  exact ⟨rfl, rfl⟩

theorem intact_init : aesdInitModule.Intact := fun _ => rfl

/-- Byte conservation: evicted commands, live commands and the working entry
spell out the first `retval` bytes of every call so far, cut into lines, and a call
returns the number of bytes it copied. -/
theorem writes_conserve_bytes (calls : List (ℕ × WriteCall))
    (h : writer.Guarded WriteOk aesdInitModule calls) :
    let s := writer.final aesdInitModule calls
    let outs := writer.outputs aesdInitModule calls
    (outs.filterMap (·.lost)).flatten ++ s.liveBytes.flatten ++ s.pendingBytes =
      (List.zipWith (fun (c : ℕ × WriteCall) (o : WriteOutcome) => c.2.buf.take o.retval.toNat)
        calls outs).flatten ∧
    (∀ line ∈ outs.filterMap (·.lost) ++ s.liveBytes,
      line ≠ [] ∧ line.getLast? = some newline) ∧
    (s.pendingBytes = [] ∨ s.pendingBytes.getLast? ≠ some newline) ∧
    s.liveBytes.length = min 10 (outs.filterMap (·.committed)).length ∧
    outs.map (·.retval) = calls.map fun c => (c.2.copied : ℤ) := by
  obtain ⟨⟨-, -, hstore⟩, hreplies⟩ := writer_refines_lineStore h deviceWf_init intact_init
  have hhist := LineStore.run_history newline 10 (calls.map fun c => c.2.data)
  have hinit : lineStore aesdInitModule = .empty := rfl
  rw [hinit] at hstore hreplies
  rw [← hstore, ← hreplies] at hhist
  obtain ⟨hc, hl⟩ := filterMap_lineReply (writer.outputs aesdInitModule calls)
  have hconserved := hhist.conserved (by decide)
  have hkept := hhist.lost_or_kept (by decide)
  have hlength := hhist.lines_length (by decide)
  have hended := hhist.ended
  rw [hl] at hconserved hkept
  rw [hc] at hkept hlength hended
  refine ⟨?_, ?_, Or.inr hhist.open_tail, hlength, writer_retvals h⟩
  · rw [writer_accepted_bytes h]
    exact hconserved
  · intro line hline
    have hlast := hended line (hkept ▸ hline)
    exact ⟨fun hnil => by simp [hnil] at hlast, hlast⟩

theorem writes_conserve_bytes_split_line :
    let calls := [(0, plainWrite [97] (by decide)), (1, plainWrite [98, 10] (by decide))]
    let s := writer.final aesdInitModule calls
    let outs := writer.outputs aesdInitModule calls
    (outs.filterMap (·.lost)).flatten ++ s.liveBytes.flatten ++ s.pendingBytes =
      (List.zipWith (fun (c : ℕ × WriteCall) (o : WriteOutcome) => c.2.buf.take o.retval.toNat)
        calls outs).flatten :=
  (writes_conserve_bytes [(0, plainWrite [97] (by decide)), (1, plainWrite [98, 10] (by decide))]
    ⟨by decide, by decide, trivial⟩).1

end ProvenAesd.Driver
