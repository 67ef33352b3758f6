import ProvenAesd.AESDReadCases

/-! One handle that reads while other handles write: what its reads deliver is a
segment of the stored commands, without a gap and without a repetition. -/
namespace ProvenAesd.Driver
open BoundedQueue ConcatOffset Mealy DriverState

structure StreamState where
  dev : DriverState
  fpos : ℕ

namespace StreamState

def stored (t : StreamState) : List UInt8 := t.dev.liveBytes.flatten

end StreamState

inductive StreamCall
  | read (call : ReadCall)
  /-- A write by another handle, at that handle's own position. -/
  | write (fpos : ℕ) (call : WriteCall)

inductive StreamReply
  | read (o : ReadOutcome)
  | write (o : WriteOutcome)

namespace StreamReply

def data : StreamReply → List UInt8
  | read o => o.data
  | write _ => []

def retval : StreamReply → ℤ
  | read o => o.retval
  | write o => o.retval

end StreamReply

def stream : Machine StreamState StreamCall StreamReply where
  step t
    | .read call =>
      let o := aesdRead t.dev t.fpos call
      (⟨o.state, o.fpos⟩, .read o)
    | .write fpos call =>
      let o := aesdWrite t.dev fpos call
      (⟨o.state, t.fpos⟩, .write o)

/-- The counts are positive, and no write evicts an entry. -/
def StreamOk (t : StreamState) : StreamCall → Prop
  | .read call => 0 < call.count
  | .write fpos call => (aesdWrite t.dev fpos call).lost = none

instance (t : StreamState) (call : StreamCall) : Decidable (StreamOk t call) :=
  match call with
  | .read call => inferInstanceAs (Decidable (0 < call.count))
  | .write fpos call => inferInstanceAs (Decidable ((aesdWrite t.dev fpos call).lost = none))

def delivered (replies : List StreamReply) : List UInt8 := replies.flatMap StreamReply.data

@[simp] theorem delivered_cons (r : StreamReply) (rs : List StreamReply) :
    delivered (r :: rs) = r.data ++ delivered rs := rfl

@[simp] theorem delivered_concat (rs : List StreamReply) (r : StreamReply) :
    delivered (rs ++ [r]) = delivered rs ++ r.data := by
  simp [delivered]

theorem read_liveBytes (s : DriverState) (fpos : ℕ) (call : ReadCall) :
    (aesdRead s fpos call).state.liveBytes = s.liveBytes := by
  obtain ⟨n, hn⟩ := read_state s fpos call
  rw [hn]
  rfl

theorem read_wf {s : DriverState} (hwf : DeviceWf s) (fpos : ℕ) (call : ReadCall) :
    DeviceWf (aesdRead s fpos call).state := by
  obtain ⟨n, hn⟩ := read_state s fpos call
  rw [hn]
  exact hwf.nextReadPosition n

/-- A write that evicts nothing only appends to the stored commands. -/
theorem write_extends {s : DriverState} (hwf : DeviceWf s) {fpos : ℕ} {call : WriteCall}
    (h : (aesdWrite s fpos call).lost = none) :
    s.liveBytes.flatten <+: (aesdWrite s fpos call).state.liveBytes.flatten := by
  apply List.IsPrefix.flatten
  rcases (write_cases hwf fpos call).2 with hr | hf | hacc
  · rw [hr.state_eq]
    exact List.prefix_refl _
  · rw [hf.kept.liveBytes_eq]
  · rcases hacc.outcome with ⟨-, hk⟩ | ⟨-, hh⟩
    · rw [hk.liveBytes_eq]
    · rw [hh.lost_eq] at h
      rw [hh.liveBytes_eq]
      exact push_extends (by decide) h

/-- What holds after any reads and writes that started at position `p` on the
stored bytes `stored`. -/
structure Streamed (stored : List UInt8) (p : ℕ) (t : StreamState) (data : List UInt8) : Prop where
  wf : DeviceWf t.dev
  grown : stored <+: t.stored
  segment : data <+: t.stored.drop p
  fpos_eq : t.fpos = p+data.length
  fpos_lt : t.fpos < 2^63

theorem Streamed.read {stored : List UInt8} {p : ℕ} {t : StreamState} {data : List UInt8}
    (h : Streamed stored p t data) (call : ReadCall) :
    Streamed stored p (stream.step t (.read call)).1
      (data ++ (stream.step t (.read call)).2.data) := by
  have hlive := read_liveBytes t.dev t.fpos call
  have hstored : (stream.step t (.read call)).1.stored = t.stored := congrArg List.flatten hlive
  have hwf : DeviceWf (stream.step t (.read call)).1.dev := read_wf h.wf t.fpos call
  -- a read that fails or is at the end delivers nothing and does not move
  have hstay (hf : (aesdRead t.dev t.fpos call).fpos = t.fpos)
      (hd : (aesdRead t.dev t.fpos call).data = []) :
      Streamed stored p (stream.step t (.read call)).1
        (data ++ (stream.step t (.read call)).2.data) := by
    have hdata : data ++ (stream.step t (.read call)).2.data = data :=
      (congrArg (data ++ ·) hd).trans (List.append_nil data)
    have hfpos : (stream.step t (.read call)).1.fpos = t.fpos := hf
    rw [hdata]
    refine ⟨hwf, ?_, ?_, ?_, ?_⟩
    · rw [hstored]
      exact h.grown
    · rw [hstored]
      exact h.segment
    · rw [hfpos, h.fpos_eq]
    · rw [hfpos]
      exact h.fpos_lt
  have hfpos := h.fpos_lt
  rcases read_cases h.wf (by omega : t.fpos+1 < 2^64) call with he | hf | hd
  · exact hstay he.fpos_eq he.data_eq
  · exact hstay hf.fpos_eq hf.data_eq
  · have hpiece : (aesdRead t.dev t.fpos call).data <+: t.stored.drop t.fpos := by
      rw [hd.data_eq]
      exact pieceAt_segment _ _ _
    have hle := hpiece.length_le
    have htotal : t.stored.length < 2^63 := h.wf.total_lt
    have hbefore : t.fpos < t.stored.length := hd.before_end
    rw [List.length_drop] at hle
    have hfpos : (stream.step t (.read call)).1.fpos =
        t.fpos+(aesdRead t.dev t.fpos call).data.length := hd.fpos_eq
    refine ⟨hwf, ?_, ?_, ?_, ?_⟩
    · rw [hstored]
      exact h.grown
    · -- what it delivers starts where the bytes delivered so far have ended
      rw [hstored]
      apply append_prefix_of_drop h.segment
      rw [List.drop_drop, ← h.fpos_eq]
      exact hpiece
    · have hlen : (data ++ (stream.step t (.read call)).2.data).length =
          data.length+(aesdRead t.dev t.fpos call).data.length := List.length_append
      rw [hfpos, hlen, ← Nat.add_assoc, ← h.fpos_eq]
    · omega

theorem Streamed.write {stored : List UInt8} {p : ℕ} {t : StreamState} {data : List UInt8}
    (h : Streamed stored p t data) {fpos : ℕ} {call : WriteCall}
    (hkeep : (aesdWrite t.dev fpos call).lost = none) :
    Streamed stored p (stream.step t (.write fpos call)).1 data := by
  have hext : t.stored <+: (stream.step t (.write fpos call)).1.stored := write_extends h.wf hkeep
  exact ⟨(write_cases h.wf fpos call).1, h.grown.trans hext, h.segment.trans (hext.drop p),
    h.fpos_eq, h.fpos_lt⟩

theorem streamed_run {s : DriverState} (hwf : DeviceWf s) {p : ℕ} (hp : p < 2^63)
    {calls : List StreamCall} (h : stream.Guarded StreamOk ⟨s, p⟩ calls) :
    Streamed s.liveBytes.flatten p (stream.final ⟨s, p⟩ calls)
      (delivered (stream.outputs ⟨s, p⟩ calls)) := by
  apply h.history fun t _ replies => Streamed s.liveBytes.flatten p t (delivered replies)
  · exact ⟨hwf, List.prefix_refl _, List.nil_prefix, rfl, hp⟩
  · intro t calls replies call hstr hok
    rw [delivered_concat]
    cases call with
    | read call => exact hstr.read call
    | write fpos call =>
      have hnil : (stream.step t (.write fpos call)).2.data = [] := rfl
      rw [hnil, List.append_nil]
      exact hstr.write hok

/-- What one read with a positive count does at the position `t.fpos`. -/
structure ReadExact (t : StreamState) (call : ReadCall) (o : ReadOutcome) : Prop where
  served : t.fpos < t.stored.length → call.copyFault = false →
    1 ≤ o.retval ∧ o.retval ≤ call.count ∧ o.retval = o.data.length ∧
      o.fpos = t.fpos+o.data.length
  ended : o.retval = 0 ↔ t.stored.length ≤ t.fpos
  ended_fpos : o.retval = 0 → o.fpos = t.fpos
  faulted : o.retval = -EFAULT → o.fpos = t.fpos ∧ o.state.heap = t.dev.heap ∧
    o.state.buffer = t.dev.buffer ∧ o.state.working = t.dev.working

theorem read_exact {t : StreamState} (hwf : DeviceWf t.dev) (hp : t.fpos+1 < 2^64)
    {call : ReadCall} (hc : 0 < call.count) :
    ReadExact t call (aesdRead t.dev t.fpos call) := by
  have hsame := read_sameStore t.dev t.fpos call
  have hkeeps : (aesdRead t.dev t.fpos call).state.heap = t.dev.heap ∧
      (aesdRead t.dev t.fpos call).state.buffer = t.dev.buffer ∧
      (aesdRead t.dev t.fpos call).state.working = t.dev.working :=
    ⟨hsame.heap.symm, hsame.buffer.symm, hsame.working.symm⟩
  rcases read_cases hwf hp call with he | hf | hd
  · have hend : t.stored.length ≤ t.fpos := he.at_end
    refine ⟨fun hlt => ?_, ?_, fun _ => he.fpos_eq, fun _ => ⟨he.fpos_eq, hkeeps⟩⟩
    · omega
    · simp only [he.retval_eq, hend]
  · have hlt : t.fpos < t.stored.length := hf.before_end
    refine ⟨fun _ hno => ?_, ?_, fun _ => hf.fpos_eq, fun _ => ⟨hf.fpos_eq, hkeeps⟩⟩
    · rw [hf.fault] at hno
      cases hno
    · rw [hf.retval_eq]
      constructor
      · intro h0
        cases h0
      · omega
  · have hlt : t.fpos < t.stored.length := hd.before_end
    have hpos := pieceAt_length_pos hlt hc
    have hle := pieceAt_length_le t.dev.liveBytes t.fpos call.count
    rw [← hd.data_eq] at hpos hle
    have hret := hd.retval_eq
    refine ⟨fun _ _ => ⟨?_, ?_, hret, hd.fpos_eq⟩, ?_, fun h0 => ?_, fun hneg => ?_⟩
    · omega
    · omega
    · omega
    · omega
    · have herr : (-EFAULT : ℤ) < 0 := by decide
      omega

/-- The reads with the counts `counts 0`, `counts 1`, ..., none of them faulting. -/
def readAll (counts : ℕ → ℕ) (n : ℕ) : List StreamCall :=
  (List.range n).map fun i => .read ⟨counts i, false⟩

theorem readAll_succ (counts : ℕ → ℕ) (n : ℕ) :
    readAll counts (n+1) = .read ⟨counts 0, false⟩ :: readAll (fun i => counts (i+1)) n := by
  simp [readAll, List.range_succ_eq_map, Function.comp_def]

/-- The bytes left shrink with every read, so some read finds none. -/
theorem reads_finish (k : ℕ) :
    ∀ (t : StreamState) (counts : ℕ → ℕ), DeviceWf t.dev → t.fpos < 2^63 →
      (∀ i, 0 < counts i) → t.stored.length-t.fpos ≤ k →
      ∃ n, (∀ r ∈ stream.outputs t (readAll counts n), 1 ≤ r.retval) ∧
        delivered (stream.outputs t (readAll counts n)) = t.stored.drop t.fpos ∧
        (stream.step (stream.final t (readAll counts n)) (.read ⟨counts n, false⟩)).2.retval = 0 := by
  -- the induction is on a bound of the bytes that are left
  induction k with
  | zero =>
    intro t counts hwf hp hc hk
    have hend : t.stored.length ≤ t.fpos := by omega
    refine ⟨0, fun _ hr => absurd hr List.not_mem_nil, ?_, ?_⟩
    · exact (List.drop_eq_nil_of_le hend).symm
    · exact (read_exact hwf (by omega) (hc 0)).ended.mpr hend
  | succ k ih =>
    intro t counts hwf hp hc hk
    by_cases hend : t.stored.length ≤ t.fpos
    · refine ⟨0, fun _ hr => absurd hr List.not_mem_nil, ?_, ?_⟩
      · exact (List.drop_eq_nil_of_le hend).symm
      · exact (read_exact hwf (by omega) (hc 0)).ended.mpr hend
    · -- one read, and the induction hypothesis for the rest
      have hlt : t.fpos < t.stored.length := by omega
      have hexact : ReadExact t ⟨counts 0, false⟩ (aesdRead t.dev t.fpos ⟨counts 0, false⟩) :=
        read_exact hwf (by omega) (hc 0)
      obtain ⟨hpos, -, hret, hfpos⟩ := hexact.served hlt rfl
      have hinit : Streamed t.stored t.fpos t [] :=
        ⟨hwf, List.prefix_refl _, List.nil_prefix, rfl, hp⟩
      have hnext := hinit.read ⟨counts 0, false⟩
      generalize hu : (stream.step t (.read ⟨counts 0, false⟩)).1 = u at hnext
      have hstored : u.stored = t.stored := by
        rw [← hu]
        exact congrArg List.flatten (read_liveBytes t.dev t.fpos _)
      have hufpos : u.fpos = t.fpos+(aesdRead t.dev t.fpos ⟨counts 0, false⟩).data.length := by
        rw [← hu]
        exact hfpos
      obtain ⟨n, hall, hdel, hzero⟩ := ih u (fun i => counts (i+1)) hnext.wf hnext.fpos_lt
        (fun i => hc (i+1)) (by rw [hstored]; omega)
      refine ⟨n+1, ?_, ?_, ?_⟩
      · rw [readAll_succ, Machine.outputs_cons, hu]
        intro r hr
        rcases List.mem_cons.mp hr with rfl | hr
        · exact hpos
        · exact hall r hr
      · have hseg : (aesdRead t.dev t.fpos ⟨counts 0, false⟩).data <+: t.stored.drop t.fpos := by
          have h := hnext.segment
          rwa [hstored] at h
        rw [readAll_succ, Machine.outputs_cons, delivered_cons, hu, hdel, hstored, hufpos,
          ← List.drop_drop]
        exact List.prefix_iff_eq_append.mp hseg
      · rw [readAll_succ, Machine.final_cons, hu]
        exact hzero

/-- Reads of one handle deliver the stored commands from its position on, in
order, whatever the counts and whatever other handles append meanwhile. -/
theorem reads_stream_exactly {s : DriverState} (hs : Reachable s) {p : ℕ} (hp : p < 2^63) :
    (∀ calls : List StreamCall, stream.Guarded StreamOk ⟨s, p⟩ calls →
      let t := stream.final ⟨s, p⟩ calls
      let data := delivered (stream.outputs ⟨s, p⟩ calls)
      s.liveBytes.flatten <+: t.stored ∧ data <+: t.stored.drop p ∧ t.fpos = p+data.length ∧
      ∀ call : ReadCall, 0 < call.count → ReadExact t call (aesdRead t.dev t.fpos call)) ∧
    (∀ counts : ℕ → ℕ, (∀ i, 0 < counts i) → ∃ n,
      (∀ r ∈ stream.outputs ⟨s, p⟩ (readAll counts n), 1 ≤ r.retval) ∧
      delivered (stream.outputs ⟨s, p⟩ (readAll counts n)) = s.liveBytes.flatten.drop p ∧
      (stream.step (stream.final ⟨s, p⟩ (readAll counts n)) (.read ⟨counts n, false⟩)).2.retval =
        0) := by
  constructor
  · intro calls h
    have hstr := streamed_run hs.wf hp h
    have hfpos := hstr.fpos_lt
    refine ⟨hstr.grown, hstr.segment, hstr.fpos_eq, fun call hc => ?_⟩
    apply read_exact hstr.wf _ hc
    omega
  · intro counts hc
    exact reads_finish _ ⟨s, p⟩ counts hs.wf hp hc le_rfl

/-- Two stored lines are read from the second byte on while a third arrives. -/
theorem reads_stream_exactly_two_lines :
    let s := driver.final aesdInitModule
      [.write 0 (plainWrite [97, 98, 10] (by decide)), .write 0 (plainWrite [99, 10] (by decide))]
    let calls : List StreamCall :=
      [.read ⟨5, false⟩, .write 0 (plainWrite [100, 10] (by decide)), .read ⟨5, true⟩,
        .read ⟨1, false⟩]
    delivered (stream.outputs ⟨s, 1⟩ calls) <+:
      (stream.final ⟨s, 1⟩ calls).stored.drop 1 := by
  intro s calls
  have hguard : stream.Guarded StreamOk ⟨s, 1⟩ calls :=
    ⟨by decide, by decide, by decide, by decide, trivial⟩
  exact ((reads_stream_exactly ⟨_, rfl⟩ (by decide)).1 calls hguard).2.1

end ProvenAesd.Driver
