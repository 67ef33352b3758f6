import ProvenAesd.AESDWriteCases

/-! The file operations as calls under way side by side: what each does up to its
lock, while it has the device locked, and on its way out, in any interleaving. -/
namespace ProvenAesd.Driver
open Mealy DriverState

inductive FileCall
  | read (fpos : ℕ) (call : ReadCall)
  | write (fpos : ℕ) (call : WriteCall)
  | llseek (kernel : FixedSizeLlseek) (fpos : ℕ) (off : ℤ) (whence : Whence)
  | ioctl (fpos cmd : ℕ) (arg : Option AesdSeekto)

/-- The local `devp` of an operation, which is a stack word until it is loaded
from `filp->private_data`. -/
inductive DevPtr
  | privateData
  | uninitialised
  deriving DecidableEq, Repr

inductive MutexOp
  | lock (devp : DevPtr)
  | unlock (devp : DevPtr)
  deriving DecidableEq, Repr

def MutexOp.devp : MutexOp → DevPtr
  | .lock devp => devp
  | .unlock devp => devp

/-- The statement a call is at: its `mutex_lock`, the first one behind that, the
`mutex_unlock` at its exit, its `return`, or none any more. -/
inductive CallPoint
  | locking
  | inside
  | unlocking
  | returning
  | returned
  | faulted
  deriving DecidableEq, Repr

structure CallFrame where
  call : FileCall
  devp : DevPtr
  point : CallPoint

/-- A call from its entry to its `mutex_lock`, or to the exit it takes before. -/
def CallFrame.enter (call : FileCall) : CallFrame :=
  match call with
  | .read _ _ | .write _ _ | .llseek _ _ _ _ => ⟨call, .privateData, .locking⟩
  | .ioctl _ cmd arg =>
    if cmd = aesdcharIocseekto then
      match arg with
      | none => ⟨call, .uninitialised, .returning⟩
      | some seekto =>
        -- `goto r_done` comes before the load of `devp`, and `r_done` unlocks
        if seekto.writeCmd.toNat ≥ aesdcharMaxWriteOperationsSupported then
          ⟨call, .uninitialised, .unlocking⟩
        else ⟨call, .privateData, .locking⟩
    else ⟨call, .uninitialised, .returning⟩

def beforeLock (s : DriverState) : FileCall → DriverState
  | .read fpos _ => aesdReadStore s fpos
  | _ => s

/-- What a call does to the device while it has it locked, and where that ends. -/
def whileLocked (s : DriverState) : FileCall → DriverState × CallPoint
  | .read fpos call => ((aesdReadLocked s fpos call).state, .unlocking)
  | .write fpos call =>
    let o := aesdWrite s fpos call
    (o.state, if o.returns then .unlocking else .faulted)
  | _ => (s, .unlocking)

/-- The device, the call that holds its mutex, and the calls made so far by number. -/
structure Calls where
  device : DriverState
  holder : Option ℕ
  frame : ℕ → Option CallFrame

inductive CallMove
  | call (k : ℕ) (call : FileCall)
  | step (k : ℕ)

inductive CallEvent
  /-- A lock operation of call `k`, and who held the mutex. -/
  | acted (k : ℕ) (op : MutexOp) (holder : Option ℕ)
  | returned (k : ℕ) (holder : Option ℕ)
  | faulted (k : ℕ) (holder : Option ℕ)
  deriving DecidableEq

def Calls.setFrame (w : Calls) (k : ℕ) (f : CallFrame) : Calls :=
  { w with frame := Function.update w.frame k (some f) }

/-- The next statement of call `k`; `mutex_lock` waits while the mutex is held. What
an unlock through the uninitialised pointer hits is not the device's mutex. -/
def callStep (w : Calls) (k : ℕ) (f : CallFrame) : Calls × Option CallEvent :=
  match f.point with
  | .locking =>
    if w.holder = none then
      ({ w with holder := some k }.setFrame k { f with point := .inside },
        some (.acted k (.lock f.devp) w.holder))
    else (w, none)
  | .inside =>
    let (device, point) := whileLocked w.device f.call
    ({ w with device }.setFrame k { f with point },
      if point = .faulted then some (.faulted k w.holder) else none)
  | .unlocking =>
    let holder := if f.devp = .privateData then none else w.holder
    ({ w with holder }.setFrame k { f with point := .returning },
      some (.acted k (.unlock f.devp) w.holder))
  | .returning => (w.setFrame k { f with point := .returned }, some (.returned k w.holder))
  | .returned | .faulted => (w, none)

def fileCalls : Machine Calls CallMove (Option CallEvent) where
  step w
    | .call k call =>
      match w.frame k with
      | none => ({ w with device := beforeLock w.device call }.setFrame k (.enter call), none)
      | some _ => (w, none)
    | .step k =>
      match w.frame k with
      | none => (w, none)
      | some f => callStep w k f

def noCalls (s : DriverState) : Calls := ⟨s, none, fun _ => none⟩

/-- A lock operation goes through the pointer the call has loaded, a lock is taken
when the mutex is free and released by the call that holds it, and a call leaves
without the mutex. -/
def CallEvent.Valid : CallEvent → Prop
  | .acted _ (.lock devp) holder => devp = .privateData ∧ holder = none
  | .acted k (.unlock devp) holder => devp = .privateData ∧ holder = some k
  | .returned k holder | .faulted k holder => holder ≠ some k

/-- The lock operation of a move, if it is one of call `k`. -/
def CallEvent.opOf (k : ℕ) : Option CallEvent → List MutexOp
  | some (.acted j op _) => if j = k then [op] else []
  | _ => []

def opsOf (k : ℕ) (events : List (Option CallEvent)) : List MutexOp :=
  events.flatMap (CallEvent.opOf k)

structure LockDiscipline (events : List (Option CallEvent)) : Prop where
  valid : ∀ event, some event ∈ events → event.Valid
  matched : ∀ k holder, some (.returned k holder) ∈ events →
    opsOf k events = [] ∨ opsOf k events = [.lock .privateData, .unlock .privateData]

/-- A seek to a command number that no ring can hold. -/
def FileCall.SeeksTooFar : FileCall → Prop
  | .ioctl _ cmd (some seekto) => cmd = aesdcharIocseekto ∧ 10 ≤ seekto.writeCmd.toNat
  | _ => False

def FileCall.WritesNothing (s : DriverState) : FileCall → Prop
  | .write _ call => s.working.size+call.count = 0
  | _ => False

/-- No seek to a command number out of bounds comes to its exit, and no write of no
bytes gets the lock while nothing is pending. -/
def LockOk (w : Calls) : CallMove → Prop
  | .step k => ∀ f, w.frame k = some f →
    (f.point = .inside → ¬f.call.WritesNothing w.device) ∧
    (f.point = .unlocking → ¬f.call.SeeksTooFar)
  | .call _ _ => True

def CallFrame.Holds (f : CallFrame) : Prop :=
  f.point = .inside ∨ f.point = .faulted ∨ (f.point = .unlocking ∧ f.devp = .privateData)

/-- The pointer is loaded on every way but the early exit of a seek. -/
def CallFrame.Loaded (f : CallFrame) : Prop :=
  match f.point with
  | .locking | .inside | .faulted => f.devp = .privateData ∧ ¬f.call.SeeksTooFar
  | .unlocking => f.devp = .privateData ↔ ¬f.call.SeeksTooFar
  | .returning | .returned => True

/-- The three ways a call can go from its entry. -/
theorem enter_cases (call : FileCall) :
    (¬call.SeeksTooFar ∧ CallFrame.enter call = ⟨call, .privateData, .locking⟩) ∨
    (¬call.SeeksTooFar ∧ CallFrame.enter call = ⟨call, .uninitialised, .returning⟩) ∨
    (call.SeeksTooFar ∧ CallFrame.enter call = ⟨call, .uninitialised, .unlocking⟩) := by
  cases call with
  | read fpos call => exact Or.inl ⟨id, rfl⟩
  | write fpos call => exact Or.inl ⟨id, rfl⟩
  | llseek kernel fpos off whence => exact Or.inl ⟨id, rfl⟩
  | ioctl fpos cmd arg =>
    by_cases hcmd : cmd = aesdcharIocseekto
    · cases arg with
      | none => exact Or.inr (Or.inl ⟨id, by simp only [CallFrame.enter, if_pos hcmd]⟩)
      | some seekto =>
        by_cases hfar : seekto.writeCmd.toNat ≥ 10
        · exact Or.inr (Or.inr ⟨⟨hcmd, hfar⟩,
            by simp only [CallFrame.enter, if_pos hcmd, if_pos hfar]⟩)
        · exact Or.inl ⟨fun h => hfar h.2,
            by simp only [CallFrame.enter, if_pos hcmd, if_neg hfar]⟩
    · have hnear : ¬(FileCall.ioctl fpos cmd arg).SeeksTooFar := by
        cases arg with
        | none => exact id
        | some seekto => exact fun h => hcmd h.1
      exact Or.inr (Or.inl ⟨hnear, by simp only [CallFrame.enter, if_neg hcmd]⟩)

theorem enter_loaded (call : FileCall) : (CallFrame.enter call).Loaded := by
  rcases enter_cases call with ⟨hnear, h⟩ | ⟨hnear, h⟩ | ⟨hfar, h⟩ <;> rw [h]
  · exact ⟨rfl, hnear⟩
  · trivial
  · exact iff_of_false nofun (not_not.mpr hfar)

theorem enter_not_holds (call : FileCall) : ¬(CallFrame.enter call).Holds := by
  rcases enter_cases call with ⟨-, h⟩ | ⟨-, h⟩ | ⟨-, h⟩ <;>
    simp [h, CallFrame.Holds]

theorem whileLocked_wf {s : DriverState} (h : DeviceWf s) (call : FileCall) :
    DeviceWf (whileLocked s call).1 := by
  cases call with
  | read fpos call => exact driverStep_wf h (.readLocked fpos call)
  | write fpos call => exact (write_cases h fpos call).1
  | llseek kernel fpos off whence => exact h
  | ioctl fpos cmd arg => exact h

/-- A section ends at the exit of its call, unless the call writes no bytes onto
nothing pending. -/
theorem whileLocked_point {s : DriverState} (h : DeviceWf s) (call : FileCall) :
    (¬call.WritesNothing s ∧ (whileLocked s call).2 = .unlocking) ∨
      (call.WritesNothing s ∧ (whileLocked s call).2 = .faulted) := by
  cases call with
  | read fpos call => exact Or.inl ⟨id, rfl⟩
  | write fpos call =>
    simp only [whileLocked, FileCall.WritesNothing]
    rcases (write_cases h fpos call).2 with hr | hf | hacc
    · rw [hr.returns_eq, if_pos rfl]
      exact Or.inl ⟨hr.something.ne', rfl⟩
    · rw [hf.returns_eq]
      exact Or.inr ⟨hf.nothing, rfl⟩
    · rw [hacc.returns_eq, if_pos rfl]
      exact Or.inl ⟨hacc.something.ne', rfl⟩
  | llseek kernel fpos off whence => exact Or.inl ⟨id, rfl⟩
  | ioctl fpos cmd arg => exact Or.inl ⟨id, rfl⟩

/-- What every move preserves: the holder of the mutex is the one call between its
lock and its unlock. -/
structure CallsInv (w : Calls) : Prop where
  device : DeviceWf w.device
  holder_iff : ∀ k, w.holder = some k ↔ ∃ f, w.frame k = some f ∧ f.Holds
  loaded : ∀ k f, w.frame k = some f → f.Loaded

theorem callsInv_noCalls {s : DriverState} (h : DeviceWf s) : CallsInv (noCalls s) :=
  ⟨h, fun _ => iff_of_false nofun (by rintro ⟨f, hf, -⟩; cases hf), nofun⟩

/-- The invariant after a move of call `k`, from what is true of its own frame. -/
theorem CallsInv.setFrame {w : Calls} (h : CallsInv w) {k : ℕ} {f : CallFrame}
    {device : DriverState} {holder : Option ℕ} (hdevice : DeviceWf device) (hloaded : f.Loaded)
    (hself : holder = some k ↔ f.Holds)
    (hother : ∀ j, j ≠ k → (holder = some j ↔ w.holder = some j)) :
    CallsInv (Calls.setFrame ⟨device, holder, w.frame⟩ k f) := by
  refine ⟨hdevice, fun j => ?_, fun j g hg => ?_⟩
  · by_cases hj : j = k
    · subst hj
      simpa [Calls.setFrame] using hself
    · simp only [Calls.setFrame, Function.update_of_ne hj]
      rw [hother j hj, h.holder_iff]
  · by_cases hj : j = k
    · subst hj
      obtain rfl : f = g := by simpa [Calls.setFrame] using hg
      exact hloaded
    · simp only [Calls.setFrame, Function.update_of_ne hj] at hg
      exact h.loaded j g hg

section Frame

variable {w : Calls} (h : CallsInv w) {k : ℕ} {f : CallFrame} (hf : w.frame k = some f)

include h hf

theorem CallsInv.holder_self : w.holder = some k ↔ f.Holds := by
  rw [h.holder_iff, hf]
  constructor
  · rintro ⟨g, hg, hholds⟩
    rwa [Option.some.inj hg]
  · intro hholds
    exact ⟨f, rfl, hholds⟩

theorem CallsInv.callStep : CallsInv (callStep w k f).1 := by
  have hself := h.holder_self hf
  have hloaded := h.loaded k f hf
  unfold CallFrame.Loaded at hloaded
  cases hp : f.point with
  | locking =>
    rw [hp] at hloaded
    by_cases hfree : w.holder = none
    -- the mutex is free, so that no other call was the holder
    · simp only [Driver.callStep, hp, if_pos hfree]
      refine h.setFrame h.device hloaded (iff_of_true rfl (Or.inl rfl)) fun j hj => ?_
      rw [hfree]
      exact iff_of_false (fun he => hj (Option.some.inj he).symm) nofun
    · simp only [Driver.callStep, hp, if_neg hfree]
      exact h
  | inside =>
    rw [hp] at hloaded
    have hholds : w.holder = some k := hself.mpr (Or.inl hp)
    have hwf := whileLocked_wf h.device f.call
    simp only [Driver.callStep, hp]
    -- the newline test faults, or the call comes to its unlock
    rcases whileLocked_point h.device f.call with ⟨-, hpoint⟩ | ⟨-, hpoint⟩
    · rw [hpoint]
      exact h.setFrame hwf (iff_of_true hloaded.1 hloaded.2)
        (iff_of_true hholds (Or.inr (Or.inr ⟨rfl, hloaded.1⟩))) fun _ _ => Iff.rfl
    · rw [hpoint]
      exact h.setFrame hwf hloaded (iff_of_true hholds (Or.inr (Or.inl rfl))) fun _ _ => Iff.rfl
  | unlocking =>
    have hout : ¬CallFrame.Holds { f with point := .returning } := by simp [CallFrame.Holds]
    simp only [Driver.callStep, hp]
    by_cases hdevp : f.devp = .privateData
    · have hholds : w.holder = some k := hself.mpr (Or.inr (Or.inr ⟨hp, hdevp⟩))
      rw [if_pos hdevp]
      refine h.setFrame h.device trivial (iff_of_false nofun hout) fun j hj => ?_
      rw [hholds]
      exact iff_of_false nofun fun he => hj (Option.some.inj he).symm
    -- the early exit of a seek: the call has never held the mutex
    · have hnot : ¬f.Holds := by simp [CallFrame.Holds, hp, hdevp]
      rw [if_neg hdevp]
      exact h.setFrame h.device trivial (iff_of_false (mt hself.mp hnot) hout) fun _ _ => Iff.rfl
  | returning =>
    have hnot : ¬f.Holds := by simp [CallFrame.Holds, hp]
    simp only [Driver.callStep, hp]
    exact h.setFrame h.device trivial
      (iff_of_false (mt hself.mp hnot) (by simp [CallFrame.Holds])) fun _ _ => Iff.rfl
  | returned | faulted =>
    simp only [Driver.callStep, hp]
    exact h

/-- A step causes no invalid event exactly when it meets the condition. -/
theorem CallsInv.callStep_valid_iff :
    ((f.point = .inside → ¬f.call.WritesNothing w.device) ∧
      (f.point = .unlocking → ¬f.call.SeeksTooFar)) ↔
    ∀ event ∈ (Driver.callStep w k f).2, event.Valid := by
  have hself := h.holder_self hf
  have hloaded := h.loaded k f hf
  unfold CallFrame.Loaded at hloaded
  cases hp : f.point with
  | locking =>
    rw [hp] at hloaded
    refine iff_of_true ⟨nofun, nofun⟩ ?_
    by_cases hfree : w.holder = none
    · simp only [Driver.callStep, hp, if_pos hfree]
      rintro event ⟨⟩
      exact ⟨hloaded.1, hfree⟩
    · simp only [Driver.callStep, hp, if_neg hfree]
      exact nofun
  | inside =>
    have hholds : w.holder = some k := hself.mpr (Or.inl hp)
    simp only [Driver.callStep, hp]
    rcases whileLocked_point h.device f.call with ⟨hsome, hpoint⟩ | ⟨hnothing, hpoint⟩
    · rw [hpoint, if_neg nofun]
      exact iff_of_true ⟨fun _ => hsome, nofun⟩ nofun
    · rw [hpoint, if_pos rfl]
      -- the fault leaves the mutex behind
      exact iff_of_false (fun hok => hok.1 trivial hnothing) fun hvalid => hvalid _ rfl hholds
  | unlocking =>
    rw [hp] at hloaded
    simp only [Driver.callStep, hp]
    constructor
    · rintro ⟨-, hnear⟩ event ⟨⟩
      have hdevp := hloaded.mpr (hnear trivial)
      exact ⟨hdevp, hself.mpr (Or.inr (Or.inr ⟨hp, hdevp⟩))⟩
    · intro hvalid
      exact ⟨nofun, fun _ => hloaded.mp (hvalid _ rfl).1⟩
  | returning =>
    have hnot : ¬f.Holds := by simp [CallFrame.Holds, hp]
    refine iff_of_true ⟨nofun, nofun⟩ ?_
    simp only [Driver.callStep, hp]
    rintro event ⟨⟩
    exact mt hself.mp hnot
  | returned | faulted =>
    simp only [Driver.callStep, hp]
    exact iff_of_true ⟨nofun, nofun⟩ nofun

end Frame

theorem CallsInv.enter {w : Calls} (h : CallsInv w) {k : ℕ} (hnew : w.frame k = none)
    (call : FileCall) :
    CallsInv ({ w with device := beforeLock w.device call }.setFrame k (.enter call)) := by
  have hwf : DeviceWf (beforeLock w.device call) := by
    cases call with
    | read fpos call => exact h.device.nextReadPosition _
    | write | llseek | ioctl => exact h.device
  have hnot : w.holder ≠ some k := by
    intro hholds
    obtain ⟨f, hf, -⟩ := (h.holder_iff k).mp hholds
    rw [hnew] at hf
    cases hf
  exact h.setFrame hwf (enter_loaded call) (iff_of_false hnot (enter_not_holds call))
    fun _ _ => Iff.rfl

theorem CallsInv.step {w : Calls} (h : CallsInv w) (move : CallMove) :
    CallsInv (fileCalls.step w move).1 := by
  cases move with
  | call k call =>
    cases hf : w.frame k with
    | none =>
      simp only [fileCalls, hf]
      exact h.enter hf call
    | some f =>
      simp only [fileCalls, hf]
      exact h
  | step k =>
    cases hf : w.frame k with
    | none =>
      simp only [fileCalls, hf]
      exact h
    | some f =>
      simp only [fileCalls, hf]
      exact h.callStep hf

theorem CallsInv.lockOk_iff {w : Calls} (h : CallsInv w) (move : CallMove) :
    LockOk w move ↔ ∀ event ∈ (fileCalls.step w move).2, event.Valid := by
  cases move with
  | call k call =>
    refine iff_of_true trivial ?_
    simp only [fileCalls]
    split <;> exact nofun
  | step k =>
    cases hf : w.frame k with
    | none =>
      simp only [fileCalls, hf, LockOk]
      exact iff_of_true nofun nofun
    | some f =>
      simp only [fileCalls, hf, LockOk]
      rw [← h.callStep_valid_iff hf]
      constructor
      · intro hok
        exact hok f rfl
      · rintro hok g ⟨⟩
        exact hok

/-- The lock operations a call has made by the time it is where it is. -/
def CallFrame.Made (f : CallFrame) (ops : List MutexOp) : Prop :=
  match f.point with
  | .locking => ops = []
  | .inside | .faulted => ops = [.lock .privateData]
  | .unlocking => f.devp = .privateData → ops = [.lock .privateData]
  | .returning | .returned => ops = [] ∨ ops = [.lock .privateData, .unlock .privateData]

/-- The events so far are those of the calls' own ways to where they are. -/
structure CallsRecord (w : Calls) (events : List (Option CallEvent)) : Prop where
  inv : CallsInv w
  unmade : ∀ k, w.frame k = none → opsOf k events = []
  made : ∀ k f, w.frame k = some f → f.Made (opsOf k events)
  returned : ∀ k holder, some (.returned k holder) ∈ events →
    ∃ f, w.frame k = some f ∧ f.point = .returned

theorem callsRecord_noCalls {s : DriverState} (h : DeviceWf s) : CallsRecord (noCalls s) [] :=
  ⟨callsInv_noCalls h, fun _ _ => rfl, nofun, nofun⟩

theorem opsOf_concat (k : ℕ) (events : List (Option CallEvent)) (event : Option CallEvent) :
    opsOf k (events ++ [event]) = opsOf k events ++ CallEvent.opOf k event := by
  simp [opsOf]

section Record

variable {w : Calls} {events : List (Option CallEvent)} (h : CallsRecord w events)

include h

theorem CallsRecord.idle : CallsRecord w (events ++ [none]) := by
  have hops (k : ℕ) : opsOf k (events ++ [none]) = opsOf k events := by
    rw [opsOf_concat]
    exact List.append_nil _
  refine ⟨h.inv, fun k hk => (hops k).trans (h.unmade k hk), fun k f hf => ?_, fun k holder he => ?_⟩
  · rw [hops]
    exact h.made k f hf
  · rw [List.mem_append, List.mem_singleton] at he
    rcases he with he | he
    · exact h.returned k holder he
    · cases he

/-- The record after a move that only call `k` has part in. -/
theorem CallsRecord.setFrame {w' : Calls} {k : ℕ} {f : CallFrame} {event : Option CallEvent}
    (hinv : CallsInv w') (hframe : w'.frame = Function.update w.frame k (some f))
    (hmade : f.Made (opsOf k events ++ CallEvent.opOf k event))
    (hothers : ∀ j, j ≠ k → CallEvent.opOf j event = [])
    (hreturned : ∀ j holder, event = some (.returned j holder) → j = k ∧ f.point = .returned)
    (hover : ∀ g, w.frame k = some g → g.point = .returned → f.point = .returned) :
    CallsRecord w' (events ++ [event]) := by
  have hops (j : ℕ) (hj : j ≠ k) : opsOf j (events ++ [event]) = opsOf j events := by
    rw [opsOf_concat, hothers j hj, List.append_nil]
  refine ⟨hinv, fun j hj => ?_, fun j g hg => ?_, fun j holder he => ?_⟩
  · rw [hframe] at hj
    by_cases hjk : j = k
    · subst hjk
      rw [Function.update_self] at hj
      cases hj
    · rw [Function.update_of_ne hjk] at hj
      rw [hops j hjk, h.unmade j hj]
  · rw [hframe] at hg
    by_cases hjk : j = k
    · subst hjk
      rw [Function.update_self] at hg
      obtain rfl := Option.some.inj hg
      rw [opsOf_concat]
      exact hmade
    · rw [Function.update_of_ne hjk] at hg
      rw [hops j hjk]
      exact h.made j g hg
  · rw [hframe]
    rw [List.mem_append, List.mem_singleton] at he
    rcases he with he | he
    · obtain ⟨g, hg, hpoint⟩ := h.returned j holder he
      by_cases hjk : j = k
      · subst hjk
        rw [Function.update_self]
        exact ⟨f, rfl, hover g hg hpoint⟩
      · rw [Function.update_of_ne hjk]
        exact ⟨g, hg, hpoint⟩
    · obtain ⟨rfl, hpoint⟩ := hreturned j holder he.symm
      rw [Function.update_self]
      exact ⟨f, rfl, hpoint⟩

theorem CallsRecord.callStep {k : ℕ} {f : CallFrame} (hf : w.frame k = some f)
    (hok : LockOk w (.step k)) :
    CallsRecord (Driver.callStep w k f).1 (events ++ [(Driver.callStep w k f).2]) := by
  have hinv := h.inv.callStep hf
  have hmade := h.made k f hf
  have hloaded := h.inv.loaded k f hf
  have hnear := (hok f hf).2
  have hover (hne : f.point ≠ .returned) (point : CallPoint) (g : CallFrame)
      (hg : w.frame k = some g) (hpoint : g.point = .returned) : point = .returned := by
    rw [hf] at hg
    obtain rfl := Option.some.inj hg
    exact absurd hpoint hne
  have hacted (op : MutexOp) (holder : Option ℕ) (j : ℕ) (hj : j ≠ k) :
      CallEvent.opOf j (some (.acted k op holder)) = [] := if_neg fun hkj => hj hkj.symm
  have hself (op : MutexOp) (holder : Option ℕ) :
      CallEvent.opOf k (some (.acted k op holder)) = [op] := if_pos rfl
  unfold CallFrame.Made at hmade
  unfold CallFrame.Loaded at hloaded
  cases hp : f.point with
  | locking =>
    rw [hp] at hmade hloaded
    by_cases hfree : w.holder = none
    · simp only [Driver.callStep, hp, if_pos hfree] at hinv ⊢
      refine h.setFrame hinv rfl ?_ (hacted _ _) nofun (hover (by rw [hp]; exact nofun) _)
      rw [hself, hmade, hloaded.1]
      rfl
    · simp only [Driver.callStep, hp, if_neg hfree]
      exact h.idle
  | inside =>
    rw [hp] at hmade
    simp only [Driver.callStep, hp] at hinv ⊢
    rcases whileLocked_point h.inv.device f.call with ⟨-, hpoint⟩ | ⟨-, hpoint⟩
    · rw [hpoint] at hinv ⊢
      rw [if_neg nofun]
      refine h.setFrame hinv rfl ?_ (fun _ _ => rfl) nofun (hover (by rw [hp]; exact nofun) _)
      exact fun _ => (List.append_nil _).trans hmade
    · rw [hpoint] at hinv ⊢
      rw [if_pos rfl]
      refine h.setFrame hinv rfl ?_ (fun _ _ => rfl) nofun (hover (by rw [hp]; exact nofun) _)
      exact (List.append_nil _).trans hmade
  | unlocking =>
    rw [hp] at hmade hloaded
    -- the call is no seek out of bounds, so it unlocks what it has locked
    have hdevp := hloaded.mpr (hnear hp)
    simp only [Driver.callStep, hp] at hinv ⊢
    refine h.setFrame hinv rfl ?_ (hacted _ _) nofun (hover (by rw [hp]; exact nofun) _)
    rw [hself, hmade hdevp, hdevp]
    exact Or.inr rfl
  | returning =>
    rw [hp] at hmade
    simp only [Driver.callStep, hp] at hinv ⊢
    refine h.setFrame hinv rfl ?_ (fun _ _ => rfl) ?_ fun _ _ _ => rfl
    · rw [show CallEvent.opOf k (some (.returned k w.holder)) = [] from rfl, List.append_nil]
      exact hmade
    · rintro j holder ⟨⟩
      exact ⟨rfl, rfl⟩
  | returned | faulted =>
    simp only [Driver.callStep, hp]
    exact h.idle

theorem CallsRecord.step (move : CallMove) (hok : LockOk w move) :
    CallsRecord (fileCalls.step w move).1 (events ++ [(fileCalls.step w move).2]) := by
  have hinv := h.inv.step move
  cases move with
  | call k call =>
    cases hf : w.frame k with
    | some f =>
      simp only [fileCalls, hf]
      exact h.idle
    | none =>
      simp only [fileCalls, hf] at hinv ⊢
      refine h.setFrame hinv rfl ?_ (fun _ _ => rfl) nofun ?_
      · rw [h.unmade k hf]
        rcases enter_cases call with ⟨-, he⟩ | ⟨-, he⟩ | ⟨-, he⟩ <;> rw [he]
        · rfl
        · exact Or.inl rfl
        · exact nofun
      · rintro g hg
        rw [hf] at hg
        cases hg
  | step k =>
    cases hf : w.frame k with
    | none =>
      simp only [fileCalls, hf]
      exact h.idle
    | some f =>
      simp only [fileCalls, hf]
      exact h.callStep hf hok

end Record

/-- In every interleaving of calls on a device that can be reached, each call locks
and unlocks the mutex through the pointer it has loaded, releases only what it has
locked, and leaves it unlocked, exactly when no seek to a command number out of bounds
comes to its exit and no write of no bytes finds nothing pending. -/
theorem lock_discipline_iff {s : DriverState} (hs : Reachable s) (moves : List CallMove) :
    LockDiscipline (fileCalls.outputs (noCalls s) moves) ↔
      fileCalls.Guarded LockOk (noCalls s) moves := by
  have hiff := (fileCalls.guarded_true (noCalls s) moves).iff_outputs
    (P := fun o => ∀ event ∈ o, event.Valid) CallsInv (fun _ move hw _ => hw.step move)
    (fun _ move hw _ => hw.lockOk_iff move) (callsInv_noCalls hs.wf)
  constructor
  · intro h
    apply hiff.mpr
    intro o ho event he
    obtain rfl := Option.mem_def.mp he
    exact h.valid event ho
  · intro h
    have hrecord : CallsRecord (fileCalls.final (noCalls s) moves)
        (fileCalls.outputs (noCalls s) moves) :=
      h.history (fun w _ events => CallsRecord w events) (callsRecord_noCalls hs.wf)
        fun _ _ _ move hrec hok => hrec.step move hok
    refine ⟨fun event he => hiff.mp h _ he event rfl, fun k holder he => ?_⟩
    obtain ⟨f, hf, hpoint⟩ := hrecord.returned k holder he
    have hmade := hrecord.made k f hf
    unfold CallFrame.Made at hmade
    rw [hpoint] at hmade
    exact hmade

/-- A write and a read on the fresh device, which both get to the lock before the
write takes it. -/
theorem lock_discipline_iff_write_read :
    let moves : List CallMove := [.call 1 (.write 0 (plainWrite [125, 10] (by decide))),
      .call 2 (.read 0 ⟨4, false⟩), .step 1, .step 2, .step 1, .step 1, .step 2, .step 1]
    LockDiscipline (fileCalls.outputs (noCalls aesdInitModule) moves) ↔
      fileCalls.Guarded LockOk (noCalls aesdInitModule) moves := by
  intro moves
  have hdev : Reachable aesdInitModule := ⟨[], rfl⟩
  exact lock_discipline_iff hdev moves

/-- A seek to command 10 unlocks through a pointer it has not loaded, a mutex it
has not locked. -/
theorem seek_too_far_unlocks :
    let moves : List CallMove :=
      [.call 1 (.ioctl 0 aesdcharIocseekto (some ⟨10, 0⟩)), .step 1]
    fileCalls.outputs (noCalls aesdInitModule) moves =
        [none, some (.acted 1 (.unlock .uninitialised) none)] ∧
      ¬LockDiscipline (fileCalls.outputs (noCalls aesdInitModule) moves) := by
  intro moves
  have houtputs : fileCalls.outputs (noCalls aesdInitModule) moves =
      [none, some (.acted 1 (.unlock .uninitialised) none)] := by decide
  refine ⟨houtputs, fun h => ?_⟩
  have hvalid := h.valid (.acted 1 (.unlock .uninitialised) none) (by rw [houtputs]; simp)
  cases hvalid.1

/-- A write of no bytes never gets to its unlock. -/
example :
    fileCalls.outputs (noCalls aesdInitModule)
        [.call 1 (.write 0 (plainWrite [] (by decide))), .step 1, .step 1, .step 1] =
      [none, some (.acted 1 (.lock .privateData) none), some (.faulted 1 (some 1)), none] := by
  decide +kernel

end ProvenAesd.Driver
