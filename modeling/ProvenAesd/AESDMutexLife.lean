import ProvenAesd.AESDLocking

/-! The life of the device's mutex between the loading and the unloading of the
module: any number of calls through any number of handles, and every handle that is
released destroys the mutex. -/
namespace ProvenAesd.Driver
open Mealy

inductive MutexStatus
  | ready
  | destroyed
  deriving DecidableEq

/-- The loaded module. A handle is closed, or open with the number of calls that
are under way through it. -/
structure LoadedModule where
  calls : Calls
  aesdDevBufLock : MutexStatus
  /-- The handle a call goes through. -/
  filp : ℕ → ℕ
  handle : ℕ → Option ℕ
  /-- How many handles have been released since the module was loaded. -/
  releases : ℕ

def moduleLoaded : LoadedModule where
  calls := noCalls aesdInitModule
  aesdDevBufLock := .ready
  filp _ := 0
  handle _ := none
  releases := 0

inductive Move
  /-- `aesd_open` of a new handle. -/
  | aesdOpen (filp : ℕ)
  /-- Call `k` enters an operation. -/
  | call (k filp : ℕ) (call : FileCall)
  /-- Call `k` makes its next step. -/
  | act (k : ℕ)
  /-- `aesd_release`, when no call is under way through the handle. -/
  | aesdRelease (filp : ℕ)

inductive MutexEvent
  /-- A lock operation by call `k`, and the mutex it acted on. -/
  | acted (k : ℕ) (op : MutexOp) (status : MutexStatus)
  /-- `mutex_destroy` for the handle `filp`, and the call that held the mutex with its handle. -/
  | destroyed (filp : ℕ) (holder : Option (ℕ × ℕ))
  deriving DecidableEq

namespace LoadedModule

def holder (m : LoadedModule) : Option (ℕ × ℕ) := m.calls.holder.map fun k => (k, m.filp k)

def leave (m : LoadedModule) (k : ℕ) : LoadedModule :=
  { m with handle := Function.update m.handle (m.filp k) ((m.handle (m.filp k)).map (·-1)) }

/-- What a step of a call means for the module: a call that faults stays under way. -/
def report (m : LoadedModule) : Option CallEvent → LoadedModule × Option MutexEvent
  | some (.acted k op _) => (m, some (.acted k op m.aesdDevBufLock))
  | some (.returned k _) => (m.leave k, none)
  | some (.faulted _ _) | none => (m, none)

end LoadedModule

/-- A move that is not possible changes nothing. -/
def moduleStep (m : LoadedModule) : Move → LoadedModule × Option MutexEvent
  | .aesdOpen filp =>
    match m.handle filp with
    | none => ({ m with handle := Function.update m.handle filp (some 0) }, none)
    | some _ => (m, none)
  | .call k filp call =>
    match m.calls.frame k, m.handle filp with
    | none, some n =>
      ({ m with
        calls := (fileCalls.step m.calls (.call k call)).1
        filp := Function.update m.filp k filp
        handle := Function.update m.handle filp (some (n+1)) }, none)
    | _, _ => (m, none)
  | .act k =>
    let (after, event) := fileCalls.step m.calls (.step k)
    { m with calls := after }.report event
  | .aesdRelease filp =>
    match m.handle filp with
    | some 0 =>
      ({ m with
        handle := Function.update m.handle filp none
        aesdDevBufLock := .destroyed
        releases := m.releases+1 }, some (.destroyed filp m.holder))
    | _ => (m, none)

def driverModule : Machine LoadedModule Move (Option MutexEvent) := ⟨moduleStep⟩

/-- A lock operation acts on the device's mutex while it is initialised, and the
mutex is not destroyed while a call through another handle holds it. -/
def MutexEvent.Valid : MutexEvent → Prop
  | .acted _ op status => op.devp = .privateData ∧ status = .ready
  | .destroyed filp holder => ∀ k g, holder = some (k, g) → g = filp

/-- Call `k`, through the handle `filp`, has locked the mutex and not yet unlocked it. -/
def LoadedModule.InSection (m : LoadedModule) (k filp : ℕ) : Prop :=
  (∃ f, m.calls.frame k = some f ∧ f.Holds) ∧ m.filp k = filp

/-- No call locks or unlocks after a handle has been released or in a seek to a
command number out of bounds, and no handle is released while a call through
another one is between its lock and its unlock. -/
def LifeOk (m : LoadedModule) : Move → Prop
  | .act k => ∀ f, m.calls.frame k = some f →
    (f.point = .locking ∧ m.calls.holder = none) ∨ f.point = .unlocking →
    m.releases = 0 ∧ ¬f.call.SeeksTooFar
  | .aesdRelease filp => m.handle filp = some 0 → ∀ k g, m.InSection k g → g = filp
  | _ => True

/-- What every move preserves: the calls keep their invariant, and the mutex is as
good as the number of releases tells. -/
structure LifeInv (m : LoadedModule) : Prop where
  calls : CallsInv m.calls
  ready_iff : m.aesdDevBufLock = .ready ↔ m.releases = 0

theorem lifeInv_loaded : LifeInv moduleLoaded :=
  ⟨callsInv_noCalls deviceWf_init, by simp [moduleLoaded]⟩

theorem LifeInv.holder_iff {m : LoadedModule} (h : LifeInv m) (k filp : ℕ) :
    m.holder = some (k, filp) ↔ m.InSection k filp := by
  rw [LoadedModule.InSection, ← h.calls.holder_iff]
  simp only [LoadedModule.holder, Option.map_eq_some_iff, Prod.mk.injEq]
  constructor
  · rintro ⟨j, hj, rfl, hfilp⟩
    exact ⟨hj, hfilp⟩
  · rintro ⟨hk, hfilp⟩
    exact ⟨k, hk, rfl, hfilp⟩

theorem LifeInv.report {m : LoadedModule} (h : LifeInv m) (event : Option CallEvent) :
    LifeInv (m.report event).1 := by
  match event with
  | some (.acted k op holder) => exact h
  | some (.returned k holder) => exact ⟨h.calls, h.ready_iff⟩
  | some (.faulted k holder) => exact h
  | none => exact h

theorem module_step_inv {m : LoadedModule} (h : LifeInv m) (move : Move) :
    LifeInv (driverModule.step m move).1 := by
  cases move with
  | aesdOpen filp =>
    simp only [driverModule, moduleStep]
    split
    · exact ⟨h.calls, h.ready_iff⟩
    · exact h
  | call k filp call =>
    simp only [driverModule, moduleStep]
    split
    · exact ⟨h.calls.step (.call k call), h.ready_iff⟩
    · exact h
  | act k =>
    have hnext : LifeInv { m with calls := (fileCalls.step m.calls (.step k)).1 } :=
      ⟨h.calls.step (.step k), h.ready_iff⟩
    exact hnext.report _
  | aesdRelease filp =>
    simp only [driverModule, moduleStep]
    split
    · exact ⟨h.calls, iff_of_false nofun (Nat.succ_ne_zero _)⟩
    · exact h

theorem valid_none : ∀ event ∈ (none : Option MutexEvent), event.Valid := by
  intro event h
  cases h

/-- The lock operations of a step are in order when the mutex has not been destroyed
and the call has loaded its pointer. -/
theorem LifeInv.act_valid_iff {m : LoadedModule} (h : LifeInv m) {k : ℕ} {f : CallFrame}
    (hf : m.calls.frame k = some f) :
    ((f.point = .locking ∧ m.calls.holder = none) ∨ f.point = .unlocking →
      m.releases = 0 ∧ ¬f.call.SeeksTooFar) ↔
    ∀ event ∈ (driverModule.step m (.act k)).2, event.Valid := by
  have hloaded := h.calls.loaded k f hf
  unfold CallFrame.Loaded at hloaded
  simp only [driverModule, moduleStep, fileCalls, hf]
  cases hp : f.point with
  | locking =>
    rw [hp] at hloaded
    -- a lock that has to wait does not touch the mutex
    by_cases hfree : m.calls.holder = none
    · simp only [callStep, hp, if_pos hfree]
      constructor
      · rintro hok event ⟨⟩
        exact ⟨hloaded.1, h.ready_iff.mpr (hok (Or.inl ⟨trivial, hfree⟩)).1⟩
      · intro hvalid _
        exact ⟨h.ready_iff.mp (hvalid _ rfl).2, hloaded.2⟩
    · simp only [callStep, hp, if_neg hfree]
      exact iff_of_true (by simp [hfree]) valid_none
  | inside =>
    simp only [callStep, hp]
    refine iff_of_true (by simp) ?_
    split_ifs <;> exact valid_none
  | unlocking =>
    rw [hp] at hloaded
    simp only [callStep, hp]
    constructor
    · rintro hok event ⟨⟩
      obtain ⟨hreleases, hnear⟩ := hok (Or.inr trivial)
      exact ⟨hloaded.mpr hnear, h.ready_iff.mpr hreleases⟩
    · intro hvalid _
      -- only the early exit of a seek has not loaded its pointer
      obtain ⟨hdevp, hready⟩ := hvalid _ rfl
      exact ⟨h.ready_iff.mp hready, hloaded.mp hdevp⟩
  | returning =>
    simp only [callStep, hp]
    exact iff_of_true (by simp) valid_none
  | returned | faulted =>
    simp only [callStep, hp]
    exact iff_of_true (by simp) valid_none

/-- A move causes no invalid event exactly when it meets the condition. -/
theorem lifeOk_iff {m : LoadedModule} (h : LifeInv m) (move : Move) :
    LifeOk m move ↔ ∀ event ∈ (driverModule.step m move).2, event.Valid := by
  cases move with
  | aesdOpen filp =>
    refine iff_of_true trivial ?_
    simp only [driverModule, moduleStep]
    split <;> exact valid_none
  | call k filp call =>
    refine iff_of_true trivial ?_
    simp only [driverModule, moduleStep]
    split <;> exact valid_none
  | act k =>
    cases hf : m.calls.frame k with
    | none =>
      refine iff_of_true ?_ ?_
      · intro f hf'
        rw [hf] at hf'
        cases hf'
      · simp only [driverModule, moduleStep, fileCalls, hf]
        exact valid_none
    | some f =>
      rw [← h.act_valid_iff hf]
      constructor
      · intro hok
        exact hok f hf
      · intro hok g hg
        rw [hf] at hg
        obtain rfl := Option.some.inj hg
        exact hok
  | aesdRelease filp =>
    simp only [driverModule, moduleStep, LifeOk]
    split
    -- no call is under way through the handle, so the kernel releases it
    · next hidle =>
      constructor
      · intro hok event he
        cases he
        intro k g hholder
        exact hok hidle k g ((h.holder_iff k g).mp hholder)
      · intro hvalid _ k g hsection
        exact hvalid _ rfl k g ((h.holder_iff k g).mpr hsection)
    · next hnot =>
      exact iff_of_true (fun hidle => absurd hidle hnot) valid_none

/-- In any interleaving of calls, opens and releases the mutex is in order at
every lock, unlock and destroy exactly when every move meets the condition. -/
theorem mutex_valid_iff (moves : List Move) :
    (∀ event, some event ∈ driverModule.outputs moduleLoaded moves → event.Valid) ↔
      driverModule.Guarded LifeOk moduleLoaded moves := by
  have hiff := (driverModule.guarded_true moduleLoaded moves).iff_outputs
    (P := fun o => ∀ event ∈ o, event.Valid) LifeInv
    (fun _ move hm _ => module_step_inv hm move) (fun _ move hm _ => lifeOk_iff hm move)
    lifeInv_loaded
  rw [hiff]
  constructor
  · intro h o ho event he
    obtain rfl := Option.mem_def.mp he
    exact h event ho
  · intro h event he
    exact h (some event) he event rfl

/-- Two handles are open when the first one is released, and the second writes. -/
theorem release_invalidates :
    let moves : List Move := [.aesdOpen 1, .aesdOpen 2, .aesdRelease 1,
      .call 7 2 (.write 0 (plainWrite [126, 10] (by decide))), .act 7]
    some (.acted 7 (.lock .privateData) .destroyed) ∈ driverModule.outputs moduleLoaded moves ∧
      ¬∀ event, some event ∈ driverModule.outputs moduleLoaded moves → event.Valid := by
  intro moves
  have hevent : some (.acted 7 (.lock .privateData) .destroyed) ∈
      driverModule.outputs moduleLoaded moves := by
    decide +kernel
  refine ⟨hevent, fun h => ?_⟩
  have hready := (h _ hevent).2
  cases hready

end ProvenAesd.Driver
