import ProvenAesd.AESDLog

/-! Call by call the driver answers as the log does, whatever handles are open. -/
namespace ProvenAesd.Driver
open BoundedQueue ConcatOffset Mealy DriverState

section Slots

variable {s : DriverState} {lines : List (List UInt8)} (hwf : DeviceWf s)
  (hkept : s.liveBytes = newest 10 lines) (hoffs : s.buffer.inOffs = lines.length%10)

include hkept

theorem liveCount_of_lines : s.buffer.liveCount = min lines.length 10 := by
  have hlen := congrArg List.length hkept
  rwa [newest_length, liveBytes, List.length_map, liveEntries_length] at hlen

include hwf hoffs

/-- The slots in physical order hold the lines in slot order. -/
theorem slots_eq : (List.range s.buffer.liveCount).map (fun i => entryBytes s.heap (s.buffer.slot i)) =
    slotOrder 10 lines := by
  have hcount := liveCount_of_lines hkept
  have hnext := hwf.ring.inOffs_eq
  rw [hoffs, hcount] at hnext
  rw [hcount]
  apply slots_of_window hwf.ring.outOffs_lt hnext.symm
  rw [← hkept, ← hcount, liveBytes, AesdCircularBuffer.liveEntries, window_map]
  rfl

theorem slot_line {c : ℕ} (hc : c < s.buffer.liveCount) :
    ∃ line, (slotOrder 10 lines)[c]? = some line ∧ (s.buffer.slot c).size = line.length ∧
      (slotSizes s.buffer c).sum = ((slotOrder 10 lines).take c).flatten.length := by
  have hbacked (i : ℕ) (hi : i < s.buffer.liveCount) :
      (entryBytes s.heap (s.buffer.slot i)).length = (s.buffer.slot i).size := by
    apply Backed.bytes_length
    apply hwf.live_backed
    apply hwf.fills.live_perm.mem_iff.mpr
    exact List.mem_map_of_mem (List.mem_range.mpr hi)
  rw [← slots_eq hwf hkept hoffs]
  refine ⟨entryBytes s.heap (s.buffer.slot c), ?_, (hbacked c hc).symm, ?_⟩
  · rw [List.getElem?_map, List.getElem?_range hc]
    rfl
  · rw [← List.map_take, List.take_range, min_eq_left hc.le, List.length_flatten, List.map_map,
      slotSizes]
    congr 1
    apply List.map_congr_left
    intro i hi
    exact (hbacked i (by have := List.mem_range.mp hi; omega)).symm

theorem slotOrder_length : (slotOrder 10 lines).length = s.buffer.liveCount := by
  rw [← slots_eq hwf hkept hoffs, List.length_map, List.length_range]

end Slots

section Step

variable {H : Type*} {s : Files H} {l : Log H}

theorem Refines.total_eq (h : Refines s l) :
    s.dev.buffer.bufLen = l.kept.flatten.length := by
  rw [h.reach.bufLen_eq, h.kept_eq]

/-- A write turns the ring by one slot if it completes a line. -/
theorem write_turns (h : Refines s l) {a : H} {call : WriteCall}
    (hok : WriteOk s.dev (s.fpos a, call)) :
    let dev := (aesdWrite s.dev (s.fpos a) call).state
    let line := l.pending ++ call.data
    dev.Intact ∧
      if line.getLast? = some newline then
        dev.liveBytes = newest 10 (l.lines ++ [line]) ∧ dev.pendingBytes = [] ∧
          dev.buffer.inOffs = (l.lines ++ [line]).length%10
      else
        dev.liveBytes = l.kept ∧ dev.pendingBytes = line ∧ dev.buffer.inOffs = l.lines.length%10 := by
  obtain ⟨hint, hwrite⟩ := write_refines h.reach.wf h.intact hok
  intro dev line
  refine ⟨hint, ?_⟩
  have hstore : lineStore s.dev = ⟨l.kept, l.pending⟩ := by
    rw [lineStore, h.kept_eq, h.pending_eq]
  rw [hstore] at hwrite
  have hbuffer := write_buffer s.dev (s.fpos a) call
  have hoffs := h.inOffs_eq
  -- a line that is completed takes the next slot, and any other write none
  split_ifs with hend
  · rw [LineStore.write_of_last hend] at hwrite
    have hlive : dev.liveBytes = (push 10 l.kept line).1 :=
      congrArg (fun r => LineStore.Store.lines (Prod.fst r)) hwrite
    have hpend : dev.pendingBytes = [] :=
      congrArg (fun r => LineStore.Store.pending (Prod.fst r)) hwrite
    have hcommitted : (aesdWrite s.dev (s.fpos a) call).committed = some line :=
      congrArg (fun r => LineStore.Reply.committed (Prod.snd r)) hwrite
    refine ⟨?_, hpend, ?_⟩
    · rw [hlive, Log.kept, newest_concat (by decide)]
    · rcases hbuffer with ⟨hnone, -⟩ | ⟨_, e, -, hover⟩
      · rw [hnone] at hcommitted
        cases hcommitted
      · change dev.buffer = _ at hover
        rw [hover, handedOver_inOffs, hoffs, List.length_append, List.length_singleton,
          Nat.mod_add_mod]
  · rw [LineStore.write_of_not_last hend] at hwrite
    have hlive : dev.liveBytes = l.kept :=
      congrArg (fun r => LineStore.Store.lines (Prod.fst r)) hwrite
    have hpend : dev.pendingBytes = line :=
      congrArg (fun r => LineStore.Store.pending (Prod.fst r)) hwrite
    have hcommitted : (aesdWrite s.dev (s.fpos a) call).committed = none :=
      congrArg (fun r => LineStore.Reply.committed (Prod.snd r)) hwrite
    refine ⟨hlive, hpend, ?_⟩
    rcases hbuffer with ⟨-, hkeep⟩ | ⟨_, e, hsome, -⟩
    · change dev.buffer = _ at hkeep
      rw [hkeep, hoffs]
    · rw [hsome] at hcommitted
      cases hcommitted

variable [DecidableEq H]

/-- A call that leaves the store alone and moves the position as the log does. -/
theorem Refines.move (h : Refines s l) {dev : DriverState} (hsame : SameStore s.dev dev)
    (hreach : Reachable dev) (a : H) {p q : ℕ} (hpq : p = q) :
    Refines (s.move dev a p) (l.move a q) := by
  have hstore := hsame.lineStore_eq
  refine ⟨hreach, hsame.intact h.intact, ?_, ?_, ?_, ?_⟩
  · exact (congrArg LineStore.Store.lines hstore).trans h.kept_eq
  · exact (congrArg LineStore.Store.pending hstore).trans h.pending_eq
  · rw [Files.move, ← hsame.buffer]
    exact h.inOffs_eq
  · rw [Files.move, Log.move, h.fpos_eq, hpq]

/-- A call that does not move the position either. -/
theorem Refines.stay (h : Refines s l) {dev : DriverState} (hsame : SameStore s.dev dev)
    (hreach : Reachable dev) {a : H} {p : ℕ} (hp : p = s.fpos a) : Refines (s.move dev a p) l := by
  have hmove := h.move hsame hreach a (p := p) (q := l.fpos a) (by rw [hp, h.fpos_eq])
  rwa [Log.move, Function.update_eq_self] at hmove

def Answers (r : Files H × LogReply) (r' : Log H × LogReply) : Prop := Refines r.1 r'.1 ∧ r.2 = r'.2

theorem Refines.read (h : Refines s l) {a : H} {call : ReadCall}
    (hok : s.fpos a+call.count < 2^63) :
    Answers (files.step s (.read a call)) (l.read a call) := by
  have hreach := h.reach.read (s.fpos a) call
  have hsame := read_sameStore s.dev (s.fpos a) call
  have hpos : s.fpos a = l.fpos a := by rw [h.fpos_eq]
  simp only [files, Log.read, ← h.kept_eq, ← hpos]
  rcases read_cases h.reach.wf (by omega : s.fpos a+1 < 2^64) call with he | hf | hd
  · rw [if_pos he.at_end]
    refine ⟨h.stay hsame hreach he.fpos_eq, ?_⟩
    rw [he.retval_eq, he.data_eq]
  · rw [if_neg (by have := hf.before_end; omega), if_pos hf.fault]
    refine ⟨h.stay hsame hreach hf.fpos_eq, ?_⟩
    rw [hf.retval_eq, hf.data_eq]
  · rw [if_neg (by have := hd.before_end; omega), hd.no_fault, if_neg Bool.false_ne_true]
    refine ⟨h.move hsame hreach a ?_, ?_⟩
    · rw [hd.fpos_eq, hd.data_eq]
    · rw [hd.retval_eq, hd.data_eq]

theorem Refines.llseek (h : Refines s l) (a : H) (kernel : FixedSizeLlseek) (off : ℤ)
    (whence : Whence) :
    Answers (files.step s (.llseek a kernel off whence)) (l.llseek a kernel off whence) := by
  have hpos : s.fpos a = l.fpos a := by rw [h.fpos_eq]
  have htotal := h.total_eq
  simp only [files, aesdLlseek, Log.llseek, ← hpos]
  change s.dev.aesdDevice.aesdDevBuffer.bufLen = _ at htotal
  rw [htotal]
  exact ⟨h.move (SameStore.refl _) h.reach a rfl, rfl⟩

theorem Refines.seekTo (h : Refines s l) {a : H} {seekto : AesdSeekto} :
    Answers (files.step s (.seekTo a seekto)) (l.seekTo a seekto) := by
  have hwf := h.reach.wf
  have hoff := seekto.writeCmdOffset.toNat_lt
  simp only [files, aesdIoctl, if_true]
  by_cases hlive : seekto.writeCmd.toNat < s.dev.buffer.liveCount
  · obtain ⟨line, hline, hsize, hsum⟩ := slot_line hwf h.kept_eq h.inOffs_eq hlive
    rw [adjust_eq hwf hlive _ _ hoff, hsize, hsum]
    simp only [Log.seekTo, hline]
    by_cases hbad : line.length < seekto.writeCmdOffset.toNat
    · rw [if_pos hbad, if_pos hbad]
      exact ⟨h.stay (SameStore.refl _) h.reach rfl, rfl⟩
    · rw [if_neg hbad, if_neg hbad]
      exact ⟨h.move (SameStore.refl _) h.reach a rfl, rfl⟩
  · have hnone : (slotOrder 10 l.lines)[seekto.writeCmd.toNat]? = none := by
      rw [List.getElem?_eq_none_iff, slotOrder_length hwf h.kept_eq h.inOffs_eq]
      omega
    obtain ⟨hret, hstay⟩ := adjust_refused hwf hoff (s.fpos a) fun htaken => hlive htaken.1
    simp only [Log.seekTo, hnone]
    refine ⟨h.stay (SameStore.refl _) h.reach hstay, ?_⟩
    rw [hret]

theorem Refines.write (h : Refines s l) {a : H} {call : WriteCall}
    (hok : WriteOk s.dev (s.fpos a, call)) (hfits : s.fpos a+call.count < 2^63) :
    Answers (files.step s (.write a call)) (l.write a call.data) := by
  have hreach : Reachable (aesdWrite s.dev (s.fpos a) call).state :=
    h.reach.call (.write (s.fpos a) call)
  have hacc : Accepted s.dev (s.fpos a) call (aesdWrite s.dev (s.fpos a) call) :=
    write_accepted h.reach.wf hok.1 (something_of_copied s.dev hok.2) (s.fpos a)
  have hlen : call.data.length = call.copied := call.data_length
  have hcopied : call.copied ≤ call.count := Nat.sub_le ..
  have hret : (aesdWrite s.dev (s.fpos a) call).retval = call.data.length := by
    rw [hacc.retval_eq, hlen]
  have hfpos : Function.update s.fpos a (aesdWrite s.dev (s.fpos a) call).fpos =
      Function.update l.fpos a (l.fpos a+call.data.length) := by
    rw [hacc.fpos_eq, sizeT_of_lt (by omega), h.fpos_eq, hlen]
  obtain ⟨hint, hturn⟩ := write_turns h hok
  simp only [files, Log.write, Log.move, hret]
  split_ifs at hturn ⊢ with hend
  · exact ⟨⟨hreach, hint, hturn.1, hturn.2.1, hturn.2.2, hfpos⟩, rfl⟩
  · exact ⟨⟨hreach, hint, hturn.1, hturn.2.1, hturn.2.2, hfpos⟩, rfl⟩

/-- One call on any handle. -/
theorem Refines.step (h : Refines s l) {call : LogCall H} (hok : CallOk s call) :
    Answers (files.step s call) (logOf.step l call) := by
  cases call with
  | openFile a => exact ⟨h.move (SameStore.refl _) h.reach a rfl, rfl⟩
  | read a call => exact h.read hok
  | write a call => exact h.write hok.1 hok.2
  | llseek a kernel off whence => exact h.llseek a kernel off whence
  | seekTo a seekto => exact h.seekTo

end Step

variable {H : Type*}

def filesInit : Files H := ⟨aesdInitModule, fun _ => 0⟩

def logInit : Log H := ⟨[], [], fun _ => 0⟩

theorem refines_init : Refines (filesInit : Files H) logInit := by
  have hkept : aesdInitModule.liveBytes = newest 10 [] := rfl
  exact ⟨⟨[], rfl⟩, intact_init, hkept, rfl, rfl, rfl⟩

/-- Over any run of calls on any number of handles, with memory and something to copy for
each write and a slot for each seek, the driver answers as the log does, and holds its last
lines. -/
theorem driver_refines_log [DecidableEq H] (calls : List (LogCall H))
    (h : files.Guarded CallOk filesInit calls) :
    files.outputs filesInit calls = logOf.outputs logInit calls ∧
      Refines (files.final filesInit calls) (logOf.final logInit calls) := by
  have hrun := h.simulation logOf Refines id id (fun s l call hr hok => hr.step hok) refines_init
  rw [List.map_id, List.map_id] at hrun
  exact ⟨hrun.2, hrun.1⟩

/-- One handle writes a line in two parts, and another one reads and seeks. -/
def twoHandles : List (LogCall Bool) :=
  [.write false (plainWrite [33] (by decide)), .openFile true, .read true ⟨8, false⟩,
    .write false (plainWrite [34, 10] (by decide)), .read true ⟨2, false⟩, .read true ⟨8, true⟩,
    .llseek true fixedSizeLlseek (-1) .seekEnd, .read true ⟨8, false⟩, .seekTo true ⟨0, 1⟩,
    .read true ⟨1, false⟩, .seekTo true ⟨1, 0⟩]

theorem driver_refines_log_two_handles :
    files.outputs filesInit twoHandles = logOf.outputs logInit twoHandles ∧
      logOf.outputs logInit twoHandles =
        [⟨1, []⟩, ⟨0, []⟩, ⟨0, []⟩, ⟨2, []⟩, ⟨2, [33, 34]⟩, ⟨-EFAULT, []⟩, ⟨2, []⟩, ⟨1, [10]⟩, ⟨0, []⟩,
          ⟨1, [34]⟩, ⟨-EINVAL, []⟩] :=
  ⟨(driver_refines_log twoHandles (by decide +kernel)).1, by decide +kernel⟩

end ProvenAesd.Driver
