import ProvenAesd.AESDWriteCases

/-! Several handles on the one device. A read stores its position in the shared
`nextReadPosition` before it takes the mutex, so other handles can come between
that store and the locked section. -/
namespace ProvenAesd.Driver
open Mealy DriverState

/-- The device, each handle's `*f_pos`, and the handles whose read has stored its
position and waits for the mutex. -/
structure Handles (H : Type*) where
  dev : DriverState
  fpos : H → ℕ
  reading : H → Bool

inductive HandleStep (H : Type*)
  | storePosition (h : H)
  | lockedRead (h : H) (call : ReadCall)
  | lockedWrite (h : H) (call : WriteCall)

structure ReadReply where
  retval : ℤ
  data : List UInt8
  fpos : ℕ
  deriving DecidableEq

def ReadOutcome.reply (o : ReadOutcome) : ReadReply := ⟨o.retval, o.data, o.fpos⟩

section Machines

variable {H : Type*} [DecidableEq H]

namespace Handles

def beginRead (t : Handles H) (h : H) (dev : DriverState) : Handles H :=
  { t with dev, reading := Function.update t.reading h true }

def endRead (t : Handles H) (h : H) (o : ReadOutcome) : Handles H :=
  { dev := o.state
    fpos := Function.update t.fpos h o.fpos
    reading := Function.update t.reading h false }

def endWrite (t : Handles H) (h : H) (o : WriteOutcome) : Handles H :=
  { t with dev := o.state, fpos := Function.update t.fpos h o.fpos }

end Handles

/-- The handles as the code runs them. A step that its handle is not ready for
does nothing. -/
def interleaved : Machine (Handles H) (HandleStep H) (Option ReadReply) where
  step t
    | .storePosition h =>
      if t.reading h then (t, none) else (t.beginRead h (aesdReadStore t.dev (t.fpos h)), none)
    | .lockedRead h call =>
      if t.reading h then
        let o := aesdReadLocked t.dev (t.fpos h) call
        (t.endRead h o, some o.reply)
      else (t, none)
    | .lockedWrite h call =>
      if t.reading h then (t, none) else (t.endWrite h (aesdWrite t.dev (t.fpos h) call), none)

/-- The same handles, each read taking place as a whole when it holds the mutex. -/
def atomic : Machine (Handles H) (HandleStep H) (Option ReadReply) where
  step t
    | .storePosition h => if t.reading h then (t, none) else (t.beginRead h t.dev, none)
    | .lockedRead h call =>
      if t.reading h then
        let o := aesdRead t.dev (t.fpos h) call
        (t.endRead h o, some o.reply)
      else (t, none)
    | .lockedWrite h call =>
      if t.reading h then (t, none) else (t.endWrite h (aesdWrite t.dev (t.fpos h) call), none)

/-- The order of the reads alone: which handles have stored their position and wait
for the mutex, and whose store is the last thing any read has done. -/
structure Schedule (H : Type*) where
  reading : H → Bool
  latest : Option H

def schedule : Machine (Schedule H) (HandleStep H) Unit where
  step c
    | .storePosition h =>
      if c.reading h then (c, ()) else (⟨Function.update c.reading h true, some h⟩, ())
    | .lockedRead h _ =>
      if c.reading h then (⟨Function.update c.reading h false, none⟩, ()) else (c, ())
    | .lockedWrite _ _ => (c, ())

/-- No other read has stored its position or had its locked section since the
store of the read that has its section now. -/
def ReadInTurn (c : Schedule H) : HandleStep H → Prop
  | .lockedRead h _ => c.reading h = true → c.latest = some h
  | _ => True

/-- A run starts without a known store. -/
def Handles.order (t : Handles H) : Schedule H := ⟨t.reading, none⟩

def OwnPosition (t : Handles H) : HandleStep H → Prop
  | .lockedRead h _ => t.reading h = true → t.dev.aesdDevice.nextReadPosition = sizeT (t.fpos h)
  | _ => True

end Machines

/-- A read alone does not look at what the shared word held before. -/
theorem read_congr {s u : DriverState} (h : SameStore s u) (fpos : ℕ) (call : ReadCall) :
    aesdRead s fpos call = aesdRead u fpos call := by
  obtain ⟨n, rfl⟩ := h.exists_eq
  rfl

/-- A locked read that finds its own position is a read alone. -/
theorem readLocked_eq_read {s : DriverState} {fpos : ℕ}
    (h : s.aesdDevice.nextReadPosition = sizeT fpos) (call : ReadCall) :
    aesdReadLocked s fpos call = aesdRead s fpos call := by
  rw [aesdRead, aesdReadStore, ← h]

theorem commit_position (s : DriverState) (n : ℕ) :
    commitWorkingEntry { s with aesdDevice.nextReadPosition := n } =
      ({ (commitWorkingEntry s).1 with aesdDevice.nextReadPosition := n },
        (commitWorkingEntry s).2) := by
  unfold commitWorkingEntry
  cases hret : (aesdCircularBufferAddEntry s.buffer s.working).2 with
  | none => simp only [hret]
  | some p => simp only [hret]

theorem write_position (s : DriverState) (n fpos : ℕ) (call : WriteCall) :
    aesdWrite { s with aesdDevice.nextReadPosition := n } fpos call =
      { aesdWrite s fpos call with
        state := { (aesdWrite s fpos call).state with aesdDevice.nextReadPosition := n } } := by
  have hgrow : growWorkingEntry { s with aesdDevice.nextReadPosition := n } call =
      growWorkingEntry s call := rfl
  simp only [aesdWrite, hgrow]
  by_cases hnull : (growWorkingEntry s call).2 = .null
  · simp only [if_pos hnull]
  · simp only [if_neg hnull]
    generalize appendUserData (growWorkingEntry s call).1 (growWorkingEntry s call).2
      s.working.size call = r
    have hcommit := commit_position
      { heap := r.1, aesdDevice := { s.aesdDevice with aesdWorkingEntry := r.2 } } n
    by_cases hzero : r.2.buffptr = .zeroSize
    · simp only [if_pos hzero]
    · by_cases hend : lastByte r.1 r.2 call.stray = newline
      · simp only [if_neg hzero, if_pos hend]
        simp only at hcommit
        simp only [hcommit]
      · simp only [if_neg hzero, if_neg hend]

/-- A write neither reads nor moves the shared word. -/
theorem write_congr {s u : DriverState} (h : SameStore s u) (fpos : ℕ) (call : WriteCall) :
    SameStore (aesdWrite s fpos call).state (aesdWrite u fpos call).state ∧
      (aesdWrite s fpos call).fpos = (aesdWrite u fpos call).fpos := by
  obtain ⟨n, rfl⟩ := h.exists_eq
  rw [write_position s n]
  exact ⟨sameStore_position _ n, rfl⟩

theorem write_keeps_position (s : DriverState) (fpos : ℕ) (call : WriteCall) :
    (aesdWrite s fpos call).state.aesdDevice.nextReadPosition = s.aesdDevice.nextReadPosition := by
  have h := write_position s s.aesdDevice.nextReadPosition fpos call
  exact congrArg (fun o : WriteOutcome => o.state.aesdDevice.nextReadPosition) h

section Runs

variable {H : Type*} [DecidableEq H]

structure Matches (t u : Handles H) : Prop where
  dev : SameStore t.dev u.dev
  fpos : t.fpos = u.fpos
  reading : t.reading = u.reading

theorem Matches.beginRead {t u : Handles H} (hm : Matches t u) (h : H) {dev dev' : DriverState}
    (hdev : SameStore dev dev') : Matches (t.beginRead h dev) (u.beginRead h dev') :=
  ⟨hdev, hm.fpos, congrArg (fun r : H → Bool => Function.update r h true) hm.reading⟩

theorem Matches.endRead {t u : Handles H} (hm : Matches t u) (h : H) (o : ReadOutcome) :
    Matches (t.endRead h o) (u.endRead h o) :=
  ⟨SameStore.refl _, congrArg (fun f : H → ℕ => Function.update f h o.fpos) hm.fpos,
    congrArg (fun r : H → Bool => Function.update r h false) hm.reading⟩

theorem Matches.endWrite {t u : Handles H} (hm : Matches t u) (h : H) {o o' : WriteOutcome}
    (hdev : SameStore o.state o'.state) (hfpos : o.fpos = o'.fpos) :
    Matches (t.endWrite h o) (u.endWrite h o') := by
  refine ⟨hdev, ?_, hm.reading⟩
  rw [Handles.endWrite, Handles.endWrite, hm.fpos, hfpos]

/-- The two machines answer alike as long as every locked read finds its own position. -/
theorem Matches.step {t u : Handles H} (hm : Matches t u) (op : HandleStep H)
    (hown : OwnPosition t op) :
    Matches (interleaved.step t op).1 (atomic.step u op).1 ∧
      (interleaved.step t op).2 = (atomic.step u op).2 := by
  cases op with
  | storePosition h =>
    simp only [interleaved, atomic, ← hm.reading]
    cases t.reading h with
    | true =>
      simp only [if_true]
      exact ⟨hm, trivial⟩
    | false =>
      simp only [Bool.false_eq_true, if_false]
      exact ⟨hm.beginRead h ⟨hm.dev.heap, hm.dev.buffer, hm.dev.working⟩, trivial⟩
  | lockedRead h call =>
    simp only [interleaved, atomic, ← hm.reading, ← hm.fpos]
    cases hr : t.reading h with
    | true =>
      -- the only step at which the machines could part
      have hsame : aesdReadLocked t.dev (t.fpos h) call = aesdRead u.dev (t.fpos h) call := by
        rw [readLocked_eq_read (hown hr), read_congr hm.dev]
      simp only [if_true, hsame]
      exact ⟨hm.endRead h _, trivial⟩
    | false =>
      simp only [Bool.false_eq_true, if_false]
      exact ⟨hm, trivial⟩
  | lockedWrite h call =>
    simp only [interleaved, atomic, ← hm.reading, ← hm.fpos]
    cases t.reading h with
    | true =>
      simp only [if_true]
      exact ⟨hm, trivial⟩
    | false =>
      obtain ⟨hstate, hfpos⟩ := write_congr hm.dev (t.fpos h) call
      simp only [Bool.false_eq_true, if_false]
      exact ⟨hm.endWrite h hstate hfpos, trivial⟩

/-- The schedule is that of the handles, and the word holds the position of the
read that stored last. -/
structure Schedule.Tracks (c : Schedule H) (t : Handles H) : Prop where
  reading_eq : c.reading = t.reading
  latest_reads : ∀ h, c.latest = some h → t.reading h = true
  latest_word : ∀ h, c.latest = some h →
    t.dev.aesdDevice.nextReadPosition = sizeT (t.fpos h)

theorem Schedule.Tracks.storePosition {c : Schedule H} {t : Handles H} (h : c.Tracks t) (x : H) :
    (schedule.step c (.storePosition x)).1.Tracks (interleaved.step t (.storePosition x)).1 := by
  simp only [schedule, interleaved, h.reading_eq]
  cases t.reading x with
  | true => simpa only [if_true] using h
  | false =>
    simp only [Bool.false_eq_true, if_false]
    refine ⟨rfl, fun y hy => ?_, fun y hy => ?_⟩
    · obtain rfl := Option.some.inj hy
      exact Function.update_self ..
    · obtain rfl := Option.some.inj hy
      rfl

theorem Schedule.Tracks.lockedRead {c : Schedule H} {t : Handles H} (h : c.Tracks t) (x : H)
    (call : ReadCall) :
    (schedule.step c (.lockedRead x call)).1.Tracks
      (interleaved.step t (.lockedRead x call)).1 := by
  simp only [schedule, interleaved, h.reading_eq]
  cases t.reading x with
  | true =>
    simp only [if_true]
    exact ⟨rfl, nofun, nofun⟩
  | false => simpa only [Bool.false_eq_true, if_false] using h

theorem Schedule.Tracks.lockedWrite {c : Schedule H} {t : Handles H} (h : c.Tracks t) (x : H)
    (call : WriteCall) :
    (schedule.step c (.lockedWrite x call)).1.Tracks
      (interleaved.step t (.lockedWrite x call)).1 := by
  simp only [schedule, interleaved]
  cases hr : t.reading x with
  | true => simpa only [if_true] using h
  | false =>
    simp only [Bool.false_eq_true, if_false]
    refine ⟨h.reading_eq, h.latest_reads, fun y hy => ?_⟩
    -- the handle that writes is not the one whose read waits for the mutex
    have hne : y ≠ x := by
      rintro rfl
      rw [h.latest_reads y hy] at hr
      cases hr
    have hword := h.latest_word y hy
    simp only [Handles.endWrite, Function.update_of_ne hne]
    rw [write_keeps_position, hword]

theorem Schedule.Tracks.step {c : Schedule H} {t : Handles H} (h : c.Tracks t)
    (op : HandleStep H) : (schedule.step c op).1.Tracks (interleaved.step t op).1 := by
  cases op with
  | storePosition x => exact h.storePosition x
  | lockedRead x call => exact h.lockedRead x call
  | lockedWrite x call => exact h.lockedWrite x call

/-- Reads in turn find their own positions. -/
theorem Schedule.Tracks.ownPosition {c : Schedule H} {t : Handles H} (h : c.Tracks t)
    {ops : List (HandleStep H)} (hturn : schedule.Guarded ReadInTurn c ops) :
    interleaved.Guarded OwnPosition t ops := by
  induction ops generalizing c t with
  | nil => trivial
  | cons op ops ih =>
    refine ⟨?_, ih (h.step op) hturn.2⟩
    cases op with
    | lockedRead x call =>
      intro hr
      apply h.latest_word x
      apply hturn.1
      rw [h.reading_eq]
      exact hr
    | _ => trivial

omit [DecidableEq H] in
theorem order_tracks (t : Handles H) : t.order.Tracks t := ⟨rfl, nofun, nofun⟩

/-- In every run in which no read comes between another one's store and its locked
section, each read is served from its own position, and the reads are as if they
took place one at a time, each with its lock held. -/
theorem reads_linearize (t : Handles H) (ops : List (HandleStep H))
    (hturn : schedule.Guarded ReadInTurn t.order ops) :
    Matches (interleaved.final t ops) (atomic.final t ops) ∧
    interleaved.outputs t ops = atomic.outputs t ops ∧
    ∀ before x call after, ops = before ++ .lockedRead x call :: after →
      (interleaved.final t before).reading x = true →
      let u := interleaved.final t before
      u.dev.aesdDevice.nextReadPosition = sizeT (u.fpos x) ∧
      (interleaved.step u (.lockedRead x call)).2 =
        some (aesdRead u.dev (u.fpos x) call).reply ∧
      (interleaved.step u (.lockedRead x call)).1.fpos x =
        (aesdRead u.dev (u.fpos x) call).fpos := by
  have h := (order_tracks t).ownPosition hturn
  have hsim := h.simulation atomic Matches id id
    (fun s u op hm hown => hm.step op hown) ⟨SameStore.refl _, rfl, rfl⟩
  rw [List.map_id, List.map_id] at hsim
  refine ⟨hsim.1, hsim.2, ?_⟩
  -- each of the reads finds its position when it has its section
  rintro before x call after rfl hr u
  have hown : OwnPosition u (.lockedRead x call) := ((interleaved.guarded_append _ _ _ _).mp h).2.1
  have hpos := hown hr
  have hreply : interleaved.step u (.lockedRead x call) =
      (u.endRead x (aesdRead u.dev (u.fpos x) call),
        some (aesdRead u.dev (u.fpos x) call).reply) := by
    have hr' : u.reading x = true := hr
    simp only [interleaved, hr', if_true, readLocked_eq_read hpos]
  rw [hreply]
  exact ⟨hpos, rfl, Function.update_self ..⟩

/-- The device with the lines "a\n" and "b\n". -/
def twoLines : DriverState :=
  driver.final aesdInitModule
    [.write 0 (plainWrite [97, 10] (by decide)), .write 0 (plainWrite [98, 10] (by decide))]

/-- Handle `true` is about to read the second line and handle `false` the first. -/
def twoReaders : Handles Bool := ⟨twoLines, fun h => if h then 2 else 0, fun _ => false⟩

/-- A write of the other handle falls between the store and the section. -/
theorem reads_linearize_in_turn :
    let ops : List (HandleStep Bool) :=
      [.storePosition true, .lockedWrite false (plainWrite [99, 10] (by decide)),
        .lockedRead true ⟨2, false⟩, .storePosition false, .lockedRead false ⟨2, false⟩]
    interleaved.outputs twoReaders ops = atomic.outputs twoReaders ops := by
  intro ops
  have hturn : schedule.Guarded ReadInTurn twoReaders.order ops :=
    ⟨trivial, trivial, fun _ => rfl, trivial, fun _ => rfl, trivial⟩
  exact (reads_linearize twoReaders ops hturn).2.1

/-- Handle `true` is served the first line when handle `false` stores its
position in between. -/
theorem read_from_other_position :
    let ops : List (HandleStep Bool) := [.storePosition true, .storePosition false]
    let u := interleaved.final twoReaders ops
    Reachable twoLines ∧ u.reading true = true ∧
      (interleaved.step u (.lockedRead true ⟨2, false⟩)).2 = some ⟨2, [97, 10], 4⟩ ∧
      (aesdRead u.dev (u.fpos true) ⟨2, false⟩).reply = ⟨2, [98, 10], 4⟩ :=
  ⟨⟨_, rfl⟩, by decide, by decide +kernel, by decide +kernel⟩

end Runs

end ProvenAesd.Driver
