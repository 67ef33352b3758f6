import ProvenAesd.MealyRuns

/-! `threading.c`: any number of threads that each take a mutex for a while, statement by
statement, with whoever starts and joins them. -/
namespace ProvenAesd.Threading
open Mealy

variable {M : Type*}

structure ThreadData (M : Type*) where
  waitToObtainMs : ℤ
  waitToReleaseMs : ℤ
  mutex : M
  threadCompleteSuccess : Bool

inductive ThreadPc
  | absent
  | waitToObtain
  | lockMutex
  | waitToRelease
  | unlockMutex
  | returned
  | joined
  deriving DecidableEq, Repr

/-- Blocks of memory are named in the order of their allocation, and a thread by the
block it was given. -/
structure ThreadingState (M : Type*) where
  block : ℕ → Option (ThreadData M)
  next : ℕ
  thread : ℕ → ThreadPc
  holder : M → Option ℕ

inductive ThreadingEvent (M : Type*)
  | quiet
  | started (n : ℕ)
  /-- The start returns false, and may leave a block behind. -/
  | refused (left : Option ℕ)
  | locked (m : M) (n : ℕ)
  | unlocked (m : M) (n : ℕ)
  /-- The thread is joined, and its block is read and freed. -/
  | joined (n : ℕ) (success : Bool)

namespace ThreadingState

/-- `data` holds the arguments, with what `malloc` has left in `thread_complete_success`;
`rc` is the result of `pthread_create`. -/
def startThreadObtainingMutex (s : ThreadingState M) (data : ThreadData M) (allocated : Bool) (rc : ℤ) :
    ThreadingState M × ThreadingEvent M :=
  if allocated then
    let block := Function.update s.block s.next (some data)
    if rc ≠ 0 then ({ s with block := block, next := s.next+1 }, .refused (some s.next))
    else
      ({ s with
         block := block
         next := s.next+1
         thread := Function.update s.thread s.next .waitToObtain }, .started s.next)
  else (s, .refused none)

def moved (s : ThreadingState M) (n : ℕ) (pc : ThreadPc) : ThreadingState M :=
  { s with thread := Function.update s.thread n pc }

/-- The thread stores its success and returns its block. -/
def complete (s : ThreadingState M) (n : ℕ) (data : ThreadData M) (success : Bool) :
    ThreadingState M :=
  { s with
    block := Function.update s.block n (some { data with threadCompleteSuccess := success })
    thread := Function.update s.thread n .returned }

variable [DecidableEq M]

/-- One statement of the thread; `rc` is what a lock or an unlock returns. -/
def threadfunc (s : ThreadingState M) (n : ℕ) (rc : ℤ) : ThreadingState M × ThreadingEvent M :=
  match s.thread n, s.block n with
  | .waitToObtain, some _ => (s.moved n .lockMutex, .quiet)
  | .lockMutex, some data =>
    if rc ≠ 0 then (s.complete n data false, .quiet)
    else if s.holder data.mutex = none then
      ({ s.moved n .waitToRelease with holder := Function.update s.holder data.mutex (some n) },
        .locked data.mutex n)
    else (s, .quiet)
  | .waitToRelease, some _ => (s.moved n .unlockMutex, .quiet)
  | .unlockMutex, some data =>
    if rc ≠ 0 then (s.complete n data false, .quiet)
    else
      ({ s.complete n data true with holder := Function.update s.holder data.mutex none },
        .unlocked data.mutex n)
  | _, _ => (s, .quiet)

omit [DecidableEq M] in
/-- The joiner frees what the thread returns, as the header tells it to. -/
def join (s : ThreadingState M) (n : ℕ) : ThreadingState M × ThreadingEvent M :=
  match s.thread n, s.block n with
  | .returned, some data =>
    ({ s.moved n .joined with block := Function.update s.block n none },
      .joined n data.threadCompleteSuccess)
  | _, _ => (s, .quiet)

end ThreadingState

inductive ThreadingStep (M : Type*)
  | start (data : ThreadData M) (allocated : Bool) (rc : ℤ)
  | thread (n : ℕ) (rc : ℤ)
  | join (n : ℕ)

def threading [DecidableEq M] : Machine (ThreadingState M) (ThreadingStep M) (ThreadingEvent M) where
  step s
    | .start data allocated rc => s.startThreadObtainingMutex data allocated rc
    | .thread n rc => s.threadfunc n rc
    | .join n => s.join n

def threadingInit : ThreadingState M := ⟨fun _ => none, 0, fun _ => .absent, fun _ => none⟩

def ThreadingEvent.thread : ThreadingEvent M → Option ℕ
  | .quiet => none
  | .started n => some n
  | .refused left => left
  | .locked _ n => some n
  | .unlocked _ n => some n
  | .joined n _ => some n

def eventsOf (n : ℕ) (es : List (ThreadingEvent M)) : List (ThreadingEvent M) :=
  es.filter fun e => e.thread = some n

/-- The locks and unlocks of a mutex; true for a lock. -/
def turnsOf [DecidableEq M] (m : M) (es : List (ThreadingEvent M)) : List (ℕ × Bool) :=
  es.filterMap fun
    | .locked m' n => if m' = m then some (n, true) else none
    | .unlocked m' n => if m' = m then some (n, false) else none
    | _ => none

/-- What a thread has done when it reports `success`. -/
inductive Outcome (m : M) (n : ℕ) : Bool → List (ThreadingEvent M) → Prop
  | notLocked : Outcome m n false [.started n]
  | notUnlocked : Outcome m n false [.started n, .locked m n]
  | turn : Outcome m n true [.started n, .locked m n, .unlocked m n]

def ThreadPc.holding (pc : ThreadPc) : Prop := pc = .waitToRelease ∨ pc = .unlockMutex

/-- How the events of a thread, the statement it is at and its block belong together. -/
inductive Life (n : ℕ) : ThreadPc → Option (ThreadData M) → List (ThreadingEvent M) → Prop
  | unused : Life n .absent none []
  | left (data : ThreadData M) : Life n .absent (some data) [.refused (some n)]
  | obtaining (data : ThreadData M) {pc : ThreadPc} (hpc : pc = .waitToObtain ∨ pc = .lockMutex) :
    Life n pc (some data) [.started n]
  | holding (data : ThreadData M) {pc : ThreadPc} (hpc : pc.holding) :
    Life n pc (some data) [.started n, .locked data.mutex n]
  | returned {data : ThreadData M} {mine : List (ThreadingEvent M)}
    (hmine : Outcome data.mutex n data.threadCompleteSuccess mine) : Life n .returned (some data) mine
  | joined {m : M} {success : Bool} {mine : List (ThreadingEvent M)} (hmine : Outcome m n success mine) :
    Life n .joined none (mine ++ [.joined n success])

/-- Each turn is a lock and an unlock by one thread; the last may still be on. -/
def TakesTurns [DecidableEq M] (holder : Option ℕ) (es : List (ThreadingEvent M)) (m : M) : Prop :=
  ∃ past : List ℕ, turnsOf m es =
    past.flatMap (fun n => [(n, true), (n, false)]) ++ holder.toList.map (·, true)

def Inside (s : ThreadingState M) (m : M) (n : ℕ) : Prop :=
  (s.thread n).holding ∧ ∃ data, s.block n = some data ∧ data.mutex = m

variable [DecidableEq M] {s s' : ThreadingState M} {es : List (ThreadingEvent M)}
  {e : ThreadingEvent M} {n : ℕ} {m : M}

structure ThreadingInv (s : ThreadingState M) (es : List (ThreadingEvent M)) : Prop where
  fresh : ∀ n, s.next ≤ n → s.thread n = .absent ∧ s.block n = none
  life : ∀ n, Life n (s.thread n) (s.block n) (eventsOf n es)
  inside : ∀ m n, Inside s m n → s.holder m = some n
  turns : ∀ m, TakesTurns (s.holder m) es m

omit [DecidableEq M] in
theorem eventsOf_concat (n : ℕ) (es : List (ThreadingEvent M)) (e : ThreadingEvent M) :
    eventsOf n (es++[e]) = eventsOf n es ++ if e.thread = some n then [e] else [] := by
  by_cases he : e.thread = some n
  · simp [eventsOf, List.filter_append, he]
  · simp [eventsOf, List.filter_append, he]

omit [DecidableEq M] in
theorem life_obtaining {pc : ThreadPc} {data : ThreadData M} {mine : List (ThreadingEvent M)}
    (h : Life n pc (some data) mine) (hpc : pc = .waitToObtain ∨ pc = .lockMutex) : mine = [.started n] := by
  cases h with
  | obtaining => rfl
  | left => simp at hpc
  | holding _ hhold => rcases hhold with rfl | rfl <;> simp at hpc
  | returned => simp at hpc

omit [DecidableEq M] in
theorem life_holding {pc : ThreadPc} {data : ThreadData M} {mine : List (ThreadingEvent M)}
    (h : Life n pc (some data) mine) (hpc : pc.holding) : mine = [.started n, .locked data.mutex n] := by
  cases h with
  | holding => rfl
  | left => simp [ThreadPc.holding] at hpc
  | obtaining _ hobtain => rcases hobtain with rfl | rfl <;> simp [ThreadPc.holding] at hpc
  | returned => simp [ThreadPc.holding] at hpc

/-- A step that touches no thread but `n`. -/
structure Touches (s s' : ThreadingState M) (n : ℕ) : Prop where
  others : ∀ k, k ≠ n → s'.thread k = s.thread k ∧ s'.block k = s.block k
  next : s.next ≤ s'.next
  named : n < s'.next

omit [DecidableEq M] in
theorem Touches.inside (h : Touches s s' n) {k : ℕ} (hk : k ≠ n) : Inside s' m k ↔ Inside s m k := by
  unfold Inside
  rw [(h.others k hk).1, (h.others k hk).2]

theorem touches_fresh (hinv : ThreadingInv s es) (h : Touches s s' n) (k : ℕ) (hk : s'.next ≤ k) :
    s'.thread k = .absent ∧ s'.block k = none := by
  have hother : k ≠ n := by have := h.named; omega
  rw [(h.others k hother).1, (h.others k hother).2]
  exact hinv.fresh k (h.next.trans hk)

theorem touches_life (hinv : ThreadingInv s es) (h : Touches s s' n)
    (he : ∀ k, e.thread = some k → k = n)
    (hn : Life n (s'.thread n) (s'.block n) (eventsOf n (es++[e]))) (k : ℕ) :
    Life k (s'.thread k) (s'.block k) (eventsOf k (es++[e])) := by
  by_cases hk : k = n
  · exact hk ▸ hn
  · have hmine : eventsOf k (es++[e]) = eventsOf k es := by
      rw [eventsOf_concat, if_neg fun h => hk (he k h), List.append_nil]
    rw [hmine, (h.others k hk).1, (h.others k hk).2]
    exact hinv.life k

theorem turnsOf_concat (m : M) (es : List (ThreadingEvent M)) (e : ThreadingEvent M) :
    turnsOf m (es++[e]) = turnsOf m es ++ turnsOf m [e] := List.filterMap_append

/-- A step that is no turn at any mutex and does not take the thread between its lock and
its unlock. -/
theorem inv_other (hinv : ThreadingInv s es) (h : Touches s s' n) (he : ∀ k, e.thread = some k → k = n)
    (hholder : s'.holder = s.holder) (hturns : ∀ m, turnsOf m [e] = [])
    (hn : Life n (s'.thread n) (s'.block n) (eventsOf n (es++[e])))
    (hin : ∀ m, Inside s' m n → Inside s m n) : ThreadingInv s' (es++[e]) where
  fresh := touches_fresh hinv h
  life := touches_life hinv h he hn
  inside m k hk := by
    rw [hholder]
    by_cases hkn : k = n
    · exact hinv.inside m k (hkn ▸ hin m (hkn ▸ hk))
    · exact hinv.inside m k ((h.inside hkn).mp hk)
  turns m := by
    obtain ⟨past, hpast⟩ := hinv.turns m
    exact ⟨past, by rw [turnsOf_concat, hturns, List.append_nil, hpast, hholder]⟩

theorem inv_idle (hinv : ThreadingInv s es) (he : e.thread = none) (hturns : ∀ m, turnsOf m [e] = []) :
    ThreadingInv s (es++[e]) where
  fresh := hinv.fresh
  life k := by
    have hmine : eventsOf k (es++[e]) = eventsOf k es := by rw [eventsOf_concat]; simp [he]
    exact hmine ▸ hinv.life k
  inside := hinv.inside
  turns m := by
    obtain ⟨past, hpast⟩ := hinv.turns m
    exact ⟨past, by rw [turnsOf_concat, hturns, List.append_nil, hpast]⟩

/-- A thread that has a block has been named. -/
theorem named_of_block {data : ThreadData M} (hinv : ThreadingInv s es) (hblock : s.block n = some data) :
    n < s.next := by
  by_contra hn
  have := (hinv.fresh n (by omega)).2
  simp [hblock] at this

omit [DecidableEq M] in
theorem touches_moved (s : ThreadingState M) {pc : ThreadPc} (hn : n < s.next) : Touches s (s.moved n pc) n where
  others k hk := by simp [ThreadingState.moved, hk]
  next := le_rfl
  named := hn

omit [DecidableEq M] in
theorem touches_complete (s : ThreadingState M) {data : ThreadData M} {success : Bool} (hn : n < s.next) :
    Touches s (s.complete n data success) n where
  others k hk := by simp [ThreadingState.complete, hk]
  next := le_rfl
  named := hn

theorem inv_start (hinv : ThreadingInv s es) (data : ThreadData M) (allocated : Bool) (rc : ℤ) :
    ThreadingInv (s.startThreadObtainingMutex data allocated rc).1
      (es++[(s.startThreadObtainingMutex data allocated rc).2]) := by
  obtain ⟨hthread, hblock⟩ := hinv.fresh s.next le_rfl
  have hmine : eventsOf s.next es = [] := by
    have hlife := hinv.life s.next
    rw [hthread, hblock] at hlife
    generalize eventsOf s.next es = mine at hlife
    cases hlife with
    | unused => rfl
  unfold ThreadingState.startThreadObtainingMutex
  split_ifs with hallocated hrc
  -- `pthread_create` has failed, and the block stays behind
  · refine inv_other hinv (n := s.next) ⟨fun k hk => by simp [hk], by simp, by simp⟩ ?_ rfl
      (fun m => rfl) ?_ ?_
    · intro k hk
      simpa [ThreadingEvent.thread] using hk.symm
    · rw [eventsOf_concat, hmine]
      simpa [hthread, ThreadingEvent.thread] using Life.left data
    · rintro m ⟨hpc, -⟩
      simp [hthread, ThreadPc.holding] at hpc
  · refine inv_other hinv (n := s.next) ⟨fun k hk => by simp [hk], by simp, by simp⟩ ?_ rfl
      (fun m => rfl) ?_ ?_
    · intro k hk
      simpa [ThreadingEvent.thread] using hk.symm
    · rw [eventsOf_concat, hmine]
      simpa [ThreadingEvent.thread] using Life.obtaining data (n := s.next) (.inl rfl)
    · rintro m ⟨hpc, -⟩
      simp [ThreadPc.holding] at hpc
  · exact inv_idle hinv rfl fun m => rfl

/-- The thread fails and returns with its mutex not taken, or not given back. -/
theorem inv_fails {data : ThreadData M} (hinv : ThreadingInv s es) (hblock : s.block n = some data)
    (hmine : Outcome data.mutex n false (eventsOf n es)) :
    ThreadingInv (s.complete n data false) (es++[.quiet]) := by
  apply inv_other hinv (touches_complete s (named_of_block hinv hblock)) ?_ rfl (fun m => rfl) ?_ ?_
  · simp [ThreadingEvent.thread]
  · rw [eventsOf_concat]
    simp only [ThreadingState.complete, Function.update_self, ThreadingEvent.thread, reduceCtorEq,
      if_false, List.append_nil]
    exact Life.returned hmine
  · rintro m ⟨hpc, -⟩
    simp [ThreadingState.complete, ThreadPc.holding] at hpc

theorem inv_lock {data : ThreadData M} (hinv : ThreadingInv s es) (hthread : s.thread n = .lockMutex)
    (hblock : s.block n = some data) (hfree : s.holder data.mutex = none) :
    ThreadingInv { s.moved n .waitToRelease with holder := Function.update s.holder data.mutex (some n) }
      (es++[.locked data.mutex n]) := by
  have hnamed : n < s.next := named_of_block hinv hblock
  have htouches : Touches s
      { s.moved n .waitToRelease with holder := Function.update s.holder data.mutex (some n) } n :=
    ⟨fun k hk => by simp [ThreadingState.moved, hk], le_rfl, hnamed⟩
  have hmine : eventsOf n es = [.started n] := by
    have hlife := hinv.life n
    rw [hthread, hblock] at hlife
    exact life_obtaining hlife (.inr rfl)
  constructor
  · exact touches_fresh hinv htouches
  · apply touches_life hinv htouches
    · intro k hk
      simpa [ThreadingEvent.thread] using hk.symm
    · rw [eventsOf_concat, hmine]
      simpa [ThreadingState.moved, ThreadingEvent.thread, hblock] using
        Life.holding data (n := n) (.inl rfl)
  · intro m k hk
    by_cases hkn : k = n
    · obtain ⟨-, data', hdata', rfl⟩ := hk
      have hsame : data' = data := by simpa [ThreadingState.moved, hkn, hblock] using hdata'.symm
      simp [hsame, hkn]
    · -- Nobody else is inside a mutex that was free.
      have hheld := hinv.inside m k ((htouches.inside hkn).mp hk)
      have hm : m ≠ data.mutex := by rintro rfl; simp [hfree] at hheld
      simpa [ThreadingState.moved, hm] using hheld
  · intro m
    obtain ⟨past, hpast⟩ := hinv.turns m
    refine ⟨past, ?_⟩
    by_cases hm : m = data.mutex
    · subst hm
      rw [turnsOf_concat, hpast, hfree]
      simp [turnsOf]
    · rw [turnsOf_concat, hpast]
      simp [turnsOf, hm, Ne.symm hm]

theorem inv_unlock {data : ThreadData M} (hinv : ThreadingInv s es) (hthread : s.thread n = .unlockMutex)
    (hblock : s.block n = some data) :
    ThreadingInv { s.complete n data true with holder := Function.update s.holder data.mutex none }
      (es++[.unlocked data.mutex n]) := by
  have hnamed : n < s.next := named_of_block hinv hblock
  have htouches : Touches s
      { s.complete n data true with holder := Function.update s.holder data.mutex none } n :=
    ⟨fun k hk => by simp [ThreadingState.complete, hk], le_rfl, hnamed⟩
  have hmine : eventsOf n es = [.started n, .locked data.mutex n] := by
    have hlife := hinv.life n
    rw [hthread, hblock] at hlife
    exact life_holding hlife (.inr rfl)
  have hheld : s.holder data.mutex = some n := hinv.inside _ n ⟨.inr hthread, data, hblock, rfl⟩
  constructor
  · exact touches_fresh hinv htouches
  · apply touches_life hinv htouches
    · intro k hk
      simpa [ThreadingEvent.thread] using hk.symm
    · rw [eventsOf_concat, hmine]
      simp only [ThreadingState.complete, Function.update_self, ThreadingEvent.thread, if_true]
      exact Life.returned .turn
  · intro m k hk
    by_cases hkn : k = n
    · obtain ⟨hpc, -⟩ := hk
      simp [ThreadingState.complete, ThreadPc.holding, hkn] at hpc
    -- whoever else is inside a mutex is inside another one
    · have hother := hinv.inside m k ((htouches.inside hkn).mp hk)
      have hm : m ≠ data.mutex := by
        rintro rfl
        exact hkn (Option.some.inj (hother.symm.trans hheld))
      simpa [ThreadingState.complete, hm] using hother
  · intro m
    obtain ⟨past, hpast⟩ := hinv.turns m
    by_cases hm : m = data.mutex
    · subst hm
      refine ⟨past++[n], ?_⟩
      rw [turnsOf_concat, hpast, hheld]
      simp [turnsOf]
    · refine ⟨past, ?_⟩
      rw [turnsOf_concat, hpast]
      simp [turnsOf, hm, Ne.symm hm]

theorem inv_threadfunc (hinv : ThreadingInv s es) (n : ℕ) (rc : ℤ) :
    ThreadingInv (s.threadfunc n rc).1 (es++[(s.threadfunc n rc).2]) := by
  have hlife := hinv.life n
  unfold ThreadingState.threadfunc
  split
  -- the two sleeps only move the thread on
  case h_1 _ _ data hthread hblock =>
    rw [hthread, hblock] at hlife
    apply inv_other hinv (touches_moved s (named_of_block hinv hblock)) ?_ rfl (fun m => rfl) ?_ ?_
    · simp [ThreadingEvent.thread]
    · rw [eventsOf_concat, life_obtaining hlife (.inl rfl)]
      simpa [ThreadingState.moved, ThreadingEvent.thread, hblock] using
        Life.obtaining data (n := n) (.inr rfl)
    · rintro m ⟨hpc, -⟩
      simp [ThreadingState.moved, ThreadPc.holding] at hpc
  case h_2 _ _ data hthread hblock =>
    rw [hthread, hblock] at hlife
    split_ifs with hrc hfree
    · exact inv_fails hinv hblock (life_obtaining hlife (.inr rfl) ▸ .notLocked)
    · exact inv_lock hinv hthread hblock hfree
    -- the mutex is taken, and the lock waits
    · exact inv_idle hinv rfl fun m => rfl
  case h_3 _ _ data hthread hblock =>
    rw [hthread, hblock] at hlife
    apply inv_other hinv (touches_moved s (named_of_block hinv hblock)) ?_ rfl (fun m => rfl) ?_ ?_
    · simp [ThreadingEvent.thread]
    · rw [eventsOf_concat, life_holding hlife (.inl rfl)]
      simpa [ThreadingState.moved, ThreadingEvent.thread, hblock] using
        Life.holding data (n := n) (.inr rfl)
    · rintro m ⟨-, hdata⟩
      exact ⟨.inl hthread, hdata⟩
  case h_4 _ _ data hthread hblock =>
    rw [hthread, hblock] at hlife
    split_ifs with hrc
    · exact inv_fails hinv hblock (life_holding hlife (.inr rfl) ▸ .notUnlocked)
    · exact inv_unlock hinv hthread hblock
  case h_5 => exact inv_idle hinv rfl fun m => rfl

theorem inv_join (hinv : ThreadingInv s es) (n : ℕ) :
    ThreadingInv (s.join n).1 (es++[(s.join n).2]) := by
  have hlife := hinv.life n
  unfold ThreadingState.join
  split
  case h_1 _ _ data hthread hblock =>
    rw [hthread, hblock] at hlife
    have hnamed : n < s.next := named_of_block hinv hblock
    refine inv_other hinv (n := n) ⟨fun k hk => by simp [ThreadingState.moved, hk], le_rfl, hnamed⟩ ?_ rfl
      (fun m => rfl) ?_ ?_
    · intro k hk
      simpa [ThreadingEvent.thread] using hk.symm
    · rw [eventsOf_concat]
      generalize eventsOf n es = mine at hlife
      cases hlife with
      | returned hmine => simpa [ThreadingState.moved, ThreadingEvent.thread] using Life.joined hmine
      | obtaining _ hpc => simp at hpc
      | holding _ hpc => simp [ThreadPc.holding] at hpc
    · rintro m ⟨hpc, -⟩
      simp [ThreadingState.moved, ThreadPc.holding] at hpc
  case h_2 => exact inv_idle hinv rfl fun m => rfl

theorem threading_step (hinv : ThreadingInv s es) (step : ThreadingStep M) :
    ThreadingInv (threading.step s step).1 (es++[(threading.step s step).2]) := by
  cases step with
  | start data allocated rc => exact inv_start hinv data allocated rc
  | thread n rc => exact inv_threadfunc hinv n rc
  | join n => exact inv_join hinv n

theorem threading_init : ThreadingInv (M := M) threadingInit [] where
  fresh n _ := ⟨rfl, rfl⟩
  life n := Life.unused
  inside m n h := by simp [Inside, ThreadPc.holding, threadingInit] at h
  turns m := ⟨[], rfl⟩

theorem threading_inv (steps : List (ThreadingStep M)) :
    ThreadingInv (threading.final threadingInit steps) (threading.outputs threadingInit steps) := by
  apply (threading.guarded_true threadingInit steps).history fun s _ es => ThreadingInv s es
  · exact threading_init
  · intro s _ es step hinv _
    exact threading_step hinv step

omit [DecidableEq M] in
theorem mem_eventsOf : e ∈ eventsOf n es ↔ e ∈ es ∧ e.thread = some n := by simp [eventsOf]

omit [DecidableEq M] in
theorem outcome_not_joined {success reported : Bool} {mine : List (ThreadingEvent M)}
    (h : Outcome m n success mine) : .joined n reported ∉ mine := by
  cases h <;> simp

omit [DecidableEq M] in
theorem outcome_unlocked {success : Bool} {mine : List (ThreadingEvent M)} (h : Outcome m n success mine) :
    success = true ↔ ∃ m', .unlocked m' n ∈ mine := by
  cases h <;> simp

omit [DecidableEq M] in
/-- What a joined thread reported is whether it has had its mutex and given it back. -/
theorem life_report {pc : ThreadPc} {block : Option (ThreadData M)} {success : Bool}
    (h : Life n pc block (eventsOf n es)) (hjoined : .joined n success ∈ es) :
    success = true ↔ ∃ m, .unlocked m n ∈ es := by
  have hmem : .joined n success ∈ eventsOf n es := mem_eventsOf.mpr ⟨hjoined, rfl⟩
  have hunlocked : (∃ m, .unlocked m n ∈ es) ↔ ∃ m, .unlocked m n ∈ eventsOf n es :=
    exists_congr fun m => by rw [mem_eventsOf]; simp [ThreadingEvent.thread]
  rw [hunlocked]
  generalize eventsOf n es = mine at h hmem ⊢
  cases h with
  | unused => simp at hmem
  | left => simp at hmem
  | obtaining => simp at hmem
  | holding => simp at hmem
  | returned hmine => exact absurd hmem (outcome_not_joined hmine)
  | joined hmine =>
    rw [List.mem_append, or_iff_right (outcome_not_joined hmine)] at hmem
    obtain rfl : success = _ := by simpa using hmem
    simpa using outcome_unlocked hmine

/-- However threads are started, run and joined, each mutex goes through their turns one at
a time, each thread lives as its statements say, with its block until it is joined, and a
joined thread has reported success if and only if it had its turn. -/
theorem threads_report_their_turns (steps : List (ThreadingStep M)) :
    let s := threading.final threadingInit steps
    let es := threading.outputs threadingInit steps
    (∀ m, TakesTurns (s.holder m) es m) ∧
      (∀ m n k, Inside s m n → Inside s m k → n = k) ∧
      (∀ n, Life n (s.thread n) (s.block n) (eventsOf n es)) ∧
      ∀ n success, .joined n success ∈ es → (success = true ↔ ∃ m, .unlocked m n ∈ es) := by
  have hinv := threading_inv steps
  refine ⟨hinv.turns, ?_, hinv.life, fun n success => life_report (hinv.life n)⟩
  intro m n k hn hk
  exact Option.some.inj ((hinv.inside m n hn).symm.trans (hinv.inside m k hk))

end ProvenAesd.Threading
