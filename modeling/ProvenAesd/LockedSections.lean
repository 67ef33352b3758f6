import ProvenAesd.MealyRuns

/-! Threads that share a state under one mutex. A program that touches the shared
state only while it holds the mutex passes it on from section to section, in the
order of the locks, and what a section does can be proved as if it were alone. -/
namespace LockedSections
open Mealy

/-- The next statement of a thread: on its own state, on the shared one, or on the mutex. -/
inductive Kind
  | own
  | lock
  | shared
  | unlock
  deriving DecidableEq, Repr

/-- The program of a thread. `σ` is the shared state and `π` the thread's own, with its
place in the program; `α` is what the callees of a statement answer. -/
structure Program (σ π α : Type*) where
  kind : π → Kind
  own : π → α → π
  shared : σ → π → α → σ × π
  locked : π → π
  unlocked : π → π
  /-- The thread has ended the whole process. -/
  exits : π → Bool

structure World (T σ π : Type*) where
  shared : σ
  holder : Option T
  own : T → π
  exited : Bool

variable {T σ π α : Type*}

section Machine

variable [DecidableEq T]

/-- One statement of a thread. A lock waits until the mutex is free; the output at an
unlock is the thread, with the own state in which it left the section. -/
def step (P : Program σ π α) (w : World T σ π) (ta : T × α) : World T σ π × Option (T × π) :=
  let (t, a) := ta
  if w.exited then (w, none)
  else
    match P.kind (w.own t) with
    | .own =>
      let x := P.own (w.own t) a
      ({ w with own := Function.update w.own t x, exited := P.exits x }, none)
    | .lock =>
      if w.holder = none then
        ({ w with holder := some t, own := Function.update w.own t (P.locked (w.own t)) }, none)
      else (w, none)
    | .shared =>
      let (s, x) := P.shared w.shared (w.own t) a
      ({ w with shared := s, own := Function.update w.own t x, exited := P.exits x }, none)
    | .unlock =>
      ({ w with holder := none, own := Function.update w.own t (P.unlocked (w.own t)) },
        some (t, w.own t))

def threads (P : Program σ π α) : Machine (World T σ π) (T × α) (Option (T × π)) := ⟨step P⟩

end Machine

def start (s : σ) (own : T → π) : World T σ π := ⟨s, none, own, false⟩

/-- The sections that are over, in the order of their locks. -/
def sections (outs : List (Option (T × π))) : List (T × π) := outs.filterMap id

/-- On which side of the lock a statement stands, if its kind tells. -/
def Kind.Side (kind : Kind) (inside : Bool) : Prop :=
  match kind with
  | .lock => inside = false
  | .shared | .unlock => inside = true
  | .own => True

/-- What to show of a program. A thread is inside from its lock to its unlock and touches
the shared state only there. `J s s' x` is what a section knows that found the shared
state `s`, has made `s'` of it and is at `x` now, with nobody else to disturb it. -/
structure Program.Contract (P : Program σ π α) (inside : π → Bool) (J : σ → σ → π → Prop) :
    Prop where
  side : ∀ x, (P.kind x).Side (inside x)
  outside : ∀ x a, P.kind x = .own → inside x = false → inside (P.own x a) = false
  stays : ∀ s s' x, J s s' x → inside x = true
  locked : ∀ s x, P.kind x = .lock → J s s (P.locked x)
  own : ∀ s s' x a, P.kind x = .own → J s s' x → J s s' (P.own x a)
  shared : ∀ s s' x a, P.kind x = .shared → J s s' x →
    J s (P.shared s' x a).1 (P.shared s' x a).2
  unlocked : ∀ x, P.kind x = .unlock → inside (P.unlocked x) = false

/-- Sections that took place one after the other: each found what the one before left. -/
inductive Chain (P : Program σ π α) (J : σ → σ → π → Prop) (s₀ : σ) : List (T × π) → σ → Prop
  | nil : Chain P J s₀ [] s₀
  | concat {xs : List (T × π)} {s s' : σ} {t : T} {x : π} (before : Chain P J s₀ xs s)
      (last : J s s' x) (leaves : P.kind x = .unlock) : Chain P J s₀ (xs ++ [(t, x)]) s'

/-- The shared state is that of the sections so far, or its holder is at work on it. -/
def Held (J : σ → σ → π → Prop) (s : σ) (w : World T σ π) : Prop :=
  match w.holder with
  | none => w.shared = s
  | some t => J s w.shared (w.own t)

/-- The mutex is held by the one thread that is inside, and the sections took place in
turn. -/
structure InTurn (P : Program σ π α) (J : σ → σ → π → Prop) (inside : π → Bool) (s₀ : σ) (w : World T σ π)
    (outs : List (Option (T × π))) : Prop where
  holder_iff : ∀ t, w.holder = some t ↔ inside (w.own t) = true
  chain : ∃ s, Chain P J s₀ (sections outs) s ∧ Held J s w

@[simp] theorem sections_concat (outs : List (Option (T × π))) (out : Option (T × π)) :
    sections (outs ++ [out]) = sections outs ++ out.toList := by
  cases out <;> simp [sections]

variable {P : Program σ π α} {inside : π → Bool} {J : σ → σ → π → Prop} {s₀ : σ} {w : World T σ π}
  {outs : List (Option (T × π))}

theorem inTurn_start (P : Program σ π α) (J : σ → σ → π → Prop) (s : σ) {own : T → π}
    (hout : ∀ t, inside (own t) = false) : InTurn P J inside s (start s own) [] := by
  refine ⟨fun t => ?_, s, .nil, rfl⟩
  rw [start, hout]
  exact iff_of_false nofun nofun

theorem Chain.exists_section {past : List (T × π)} {s : σ} (h : Chain P J s₀ past s)
    {before after : List (T × π)} {e : T × π} (he : past = before ++ e :: after) :
    ∃ s₁ s₂, Chain P J s₀ before s₁ ∧ J s₁ s₂ e.2 ∧ P.kind e.2 = .unlock := by
  induction h generalizing after with
  | nil => exact absurd he.symm (by simp)
  | @concat xs s s' t x hbefore hlast hleaves ih =>
    rcases List.eq_nil_or_concat after with rfl | ⟨rest, last, rfl⟩
    · obtain ⟨rfl, hlast'⟩ := List.append_inj' he rfl
      obtain rfl := List.singleton_inj.mp hlast'
      exact ⟨s, s', hbefore, hlast, hleaves⟩
    · rw [List.concat_eq_append, ← List.cons_append, ← List.append_assoc] at he
      exact ih (List.append_inj' he rfl).1

/-- At most one thread is inside. -/
theorem InTurn.mutual_exclusion (h : InTurn P J inside s₀ w outs) {t u : T}
    (ht : inside (w.own t) = true) (hu : inside (w.own u) = true) : t = u := by
  rw [← h.holder_iff] at ht hu
  exact Option.some.inj (ht.symm.trans hu)

theorem InTurn.idle (h : InTurn P J inside s₀ w outs) : InTurn P J inside s₀ w (outs ++ [none]) := by
  refine ⟨h.holder_iff, ?_⟩
  rw [sections_concat, Option.toList_none, List.append_nil]
  exact h.chain

variable [DecidableEq T]

/-- Thread `t` moves to `x` and the mutex to `holder`. -/
theorem InTurn.holder_update (h : InTurn P J inside s₀ w outs) {t : T} {x : π} {holder : Option T}
    (hx : holder = some t ↔ inside x = true) (hother : ∀ u ≠ t, holder = some u ↔ w.holder = some u)
    (u : T) : holder = some u ↔ inside (Function.update w.own t x u) = true := by
  by_cases hu : u = t
  · rw [hu, Function.update_self]
    exact hx
  · rw [Function.update_of_ne hu, ← h.holder_iff]
    exact hother u hu

/-- Outside of the section a thread changes nothing but its own state. -/
theorem InTurn.outside (h : InTurn P J inside s₀ w outs) {t : T} {x : π}
    (hout : w.holder ≠ some t) (hx : inside x = false) (exited : Bool) :
    InTurn P J inside s₀ { w with own := Function.update w.own t x, exited } outs := by
  obtain ⟨s, hchain, hheld⟩ := h.chain
  have hiff : w.holder = some t ↔ inside x = true := iff_of_false hout (by rw [hx]; nofun)
  refine ⟨h.holder_update hiff fun u _ => Iff.rfl, s, hchain, ?_⟩
  unfold Held at hheld ⊢
  cases hh : w.holder with
  | none =>
    rw [hh] at hheld
    exact hheld
  | some u =>
    have hne : u ≠ t := by
      rintro rfl
      exact hout hh
    rw [hh] at hheld
    simp only [Function.update_of_ne hne]
    exact hheld

/-- The holder goes on with its section. -/
theorem InTurn.goOn (hJ : P.Contract inside J) (h : InTurn P J inside s₀ w outs) {t : T} {s' : σ}
    {x : π} (hin : w.holder = some t) (hstep : ∀ s, J s w.shared (w.own t) → J s s' x)
    (exited : Bool) :
    InTurn P J inside s₀ { w with shared := s', own := Function.update w.own t x, exited } outs := by
  obtain ⟨s, hchain, hheld⟩ := h.chain
  rw [Held, hin] at hheld
  have hnext := hstep s hheld
  have hiff : w.holder = some t ↔ inside x = true := iff_of_true hin (hJ.stays _ _ _ hnext)
  refine ⟨h.holder_update hiff fun u _ => Iff.rfl, s, hchain, ?_⟩
  simp only [Held, hin, Function.update_self]
  exact hnext

theorem InTurn.locked (hJ : P.Contract inside J) (h : InTurn P J inside s₀ w outs) {t : T}
    (hfree : w.holder = none) (hk : P.kind (w.own t) = .lock) :
    InTurn P J inside s₀
      { w with holder := some t, own := Function.update w.own t (P.locked (w.own t)) } outs := by
  obtain ⟨s, hchain, hheld⟩ := h.chain
  rw [Held, hfree] at hheld
  have hlocked := hJ.locked s _ hk
  refine ⟨h.holder_update (iff_of_true rfl (hJ.stays _ _ _ hlocked)) ?_, s, hchain, ?_⟩
  · intro u hu
    rw [hfree]
    exact iff_of_false (fun he => hu (Option.some.inj he).symm) nofun
  · simp only [Held, Function.update_self]
    rw [hheld]
    exact hlocked

theorem InTurn.unlocked (hJ : P.Contract inside J) (h : InTurn P J inside s₀ w outs) {t : T}
    (hin : w.holder = some t) (hk : P.kind (w.own t) = .unlock) :
    InTurn P J inside s₀
      { w with holder := none, own := Function.update w.own t (P.unlocked (w.own t)) }
      (outs ++ [some (t, w.own t)]) := by
  obtain ⟨s, hchain, hheld⟩ := h.chain
  rw [Held, hin] at hheld
  have hiff : (none : Option T) = some t ↔ inside (P.unlocked (w.own t)) = true :=
    iff_of_false nofun (by rw [hJ.unlocked _ hk]; nofun)
  refine ⟨h.holder_update hiff ?_, w.shared, ?_, rfl⟩
  · intro u hu
    rw [hin]
    exact iff_of_false nofun (fun he => hu (Option.some.inj he).symm)
  · rw [sections_concat]
    exact hchain.concat hheld hk

/-- What one statement of any thread preserves. -/
theorem InTurn.step (hJ : P.Contract inside J) (h : InTurn P J inside s₀ w outs) (ta : T × α) :
    InTurn P J inside s₀ ((threads P).step w ta).1 (outs ++ [((threads P).step w ta).2]) := by
  obtain ⟨t, a⟩ := ta
  have hside := hJ.side (w.own t)
  simp only [threads, LockedSections.step]
  by_cases hexited : w.exited = true
  · rw [if_pos hexited]
    exact h.idle
  · rw [if_neg hexited]
    cases hk : P.kind (w.own t) with
    | own =>
      by_cases hin : w.holder = some t
      · exact (h.goOn hJ hin (fun s => hJ.own s _ _ a hk) _).idle
      · have hout : inside (w.own t) = false := by
          rw [← Bool.not_eq_true, ← h.holder_iff]
          exact hin
        exact (h.outside hin (hJ.outside _ a hk hout) _).idle
    | lock =>
      by_cases hfree : w.holder = none
      · simp only [if_pos hfree]
        exact (h.locked hJ hfree hk).idle
      · simp only [if_neg hfree]
        exact h.idle
    | shared =>
      rw [hk] at hside
      exact (h.goOn hJ ((h.holder_iff t).mpr hside) (fun s => hJ.shared s _ _ a hk) _).idle
    | unlock =>
      rw [hk] at hside
      exact h.unlocked hJ ((h.holder_iff t).mpr hside) hk

/-- However the statements of the threads interleave, the sections take place in turn. -/
theorem sections_in_turn (hJ : P.Contract inside J) (s : σ) {own : T → π}
    (hout : ∀ t, inside (own t) = false) (moves : List (T × α)) :
    InTurn P J inside s ((threads P).final (start s own) moves)
      ((threads P).outputs (start s own) moves) := by
  apply ((threads P).guarded_true _ moves).history fun w _ outs => InTurn P J inside s w outs
  · exact inTurn_start P J s hout
  · intro w _ outs ta h _
    exact h.step hJ ta

end LockedSections
