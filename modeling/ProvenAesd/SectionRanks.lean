import ProvenAesd.LockedSections

/-! What the holder of the mutex can rely on, and a rank that bounds how many of its own
statements it takes to give the mutex back. -/
namespace LockedSections
open Mealy

variable {T σ π α : Type*}

/-- `R` holds of the shared state when a section begins and when it ends, and in between
`Q` of the shared state and the holder's own. -/
structure Program.Keeps (P : Program σ π α) (R : σ → Prop) (Q : σ → π → Prop) : Prop where
  locked : ∀ s x, P.kind x = .lock → R s → Q s (P.locked x)
  own : ∀ s x a, P.kind x = .own → Q s x → Q s (P.own x a)
  shared : ∀ s x a, P.kind x = .shared → Q s x → Q (P.shared s x a).1 (P.shared s x a).2
  unlocked : ∀ s x, P.kind x = .unlock → Q s x → R s

/-- A statement inside with an answer in `A` lowers the rank, or ends the process. -/
structure Program.Ranked (P : Program σ π α) (inside : π → Bool) (Q : σ → π → Prop) (A : α → Prop)
    (rank : σ → π → ℕ) : Prop where
  own : ∀ s x a, P.kind x = .own → inside x = true → Q s x → A a →
    P.exits (P.own x a) = true ∨ rank s (P.own x a) < rank s x
  shared : ∀ s x a, P.kind x = .shared → Q s x → A a →
    P.exits (P.shared s x a).2 = true ∨ rank (P.shared s x a).1 (P.shared s x a).2 < rank s x

variable {P : Program σ π α} {inside : π → Bool} {J : σ → σ → π → Prop} {R : σ → Prop}
  {Q : σ → π → Prop} {A : α → Prop} {rank : σ → π → ℕ} {s₀ : σ} {w : World T σ π}
  {outs : List (Option (T × π))}

/-- What a section knows, with `Q` if it began well. -/
def Keeping (J : σ → σ → π → Prop) (R : σ → Prop) (Q : σ → π → Prop) (s s' : σ) (x : π) : Prop :=
  J s s' x ∧ (R s → Q s' x)

theorem Program.Contract.keeping (hJ : P.Contract inside J) (hQ : P.Keeps R Q) :
    P.Contract inside (Keeping J R Q) where
  side := hJ.side
  outside := hJ.outside
  stays s s' x h := hJ.stays s s' x h.1
  locked s x hk := ⟨hJ.locked s x hk, hQ.locked s x hk⟩
  own s s' x a hk h := ⟨hJ.own s s' x a hk h.1, fun hR => hQ.own s' x a hk (h.2 hR)⟩
  shared s s' x a hk h := ⟨hJ.shared s s' x a hk h.1, fun hR => hQ.shared s' x a hk (h.2 hR)⟩
  unlocked := hJ.unlocked

theorem Chain.keeps (hQ : P.Keeps R Q) (hs : R s₀) {past : List (T × π)} {s : σ}
    (h : Chain P (Keeping J R Q) s₀ past s) : R s := by
  induction h with
  | nil => exact hs
  | concat hbefore hlast hleaves ih => exact hQ.unlocked _ _ hleaves (hlast.2 ih)

/-- The holder can rely on `Q`. -/
theorem InTurn.holder_keeps (hQ : P.Keeps R Q) (hs : R s₀)
    (h : InTurn P (Keeping J R Q) inside s₀ w outs) {t : T} (hin : w.holder = some t) :
    Q w.shared (w.own t) := by
  obtain ⟨s, hchain, hheld⟩ := h.chain
  rw [Held, hin] at hheld
  exact hheld.2 (hchain.keeps hQ hs)

variable [DecidableEq T]

theorem exited_final (h : w.exited = true) (moves : List (T × α)) :
    ((threads P).final w moves).exited = true := by
  induction moves with
  | nil => exact h
  | cons ta moves ih =>
    have hstay : ((threads P).step w ta).1 = w := by
      simp only [threads, step, h, if_true]
    rw [Machine.final_cons, hstay]
    exact ih

/-- A statement of another thread, while `t` holds the mutex. -/
theorem InTurn.step_other (hJ : P.Contract inside J) (h : InTurn P J inside s₀ w outs) {t u : T}
    (hin : w.holder = some t) (hne : u ≠ t) (a : α) :
    let w' := ((threads P).step w (u, a)).1
    w'.holder = some t ∧ w'.shared = w.shared ∧ w'.own t = w.own t := by
  intro w'
  have hside := hJ.side (w.own u)
  have hout : ¬inside (w.own u) = true := by
    rw [← h.holder_iff, hin]
    exact fun he => hne (Option.some.inj he).symm
  simp only [w', threads, LockedSections.step]
  by_cases hexited : w.exited = true
  · rw [if_pos hexited]
    exact ⟨hin, rfl, rfl⟩
  · rw [if_neg hexited]
    cases hk : P.kind (w.own u) with
    | own => exact ⟨hin, rfl, Function.update_of_ne hne.symm ..⟩
    | lock =>
      have hheld : w.holder ≠ none := by rw [hin]; exact Option.some_ne_none t
      rw [if_neg hheld]
      exact ⟨hin, rfl, rfl⟩
    | shared | unlock =>
      -- only the holder is inside
      rw [hk] at hside
      exact absurd hside hout

/-- A statement of the holder lowers its rank, ends the process or gives the mutex back. -/
theorem InTurn.step_holder (hJ : P.Contract inside J) (hrank : P.Ranked inside Q A rank)
    (h : InTurn P J inside s₀ w outs) {t : T} (hin : w.holder = some t)
    (hQ : Q w.shared (w.own t)) {a : α} (ha : A a) :
    let w' := ((threads P).step w (t, a)).1
    w'.exited = true ∨ (∃ x, ((threads P).step w (t, a)).2 = some (t, x)) ∨
      w'.holder = some t ∧ rank w'.shared (w'.own t) < rank w.shared (w.own t) := by
  intro w'
  have hinside := (h.holder_iff t).mp hin
  have hside := hJ.side (w.own t)
  simp only [w', threads, LockedSections.step]
  by_cases hexited : w.exited = true
  · rw [if_pos hexited]
    exact Or.inl hexited
  · rw [if_neg hexited]
    cases hk : P.kind (w.own t) with
    | own =>
      rcases hrank.own w.shared _ a hk hinside hQ ha with hexits | hlt
      · exact Or.inl hexits
      · refine Or.inr (Or.inr ⟨hin, ?_⟩)
        simpa only [Function.update_self] using hlt
    | lock =>
      rw [hk, Kind.Side, hinside] at hside
      cases hside
    | shared =>
      rcases hrank.shared w.shared _ a hk hQ ha with hexits | hlt
      · exact Or.inl hexits
      · refine Or.inr (Or.inr ⟨hin, ?_⟩)
        simpa only [Function.update_self] using hlt
    | unlock => exact Or.inr (Or.inl ⟨w.own t, rfl⟩)

/-- The holder gives the mutex back within as many statements of its own as its rank
tells, whatever the other threads do meanwhile, unless the process ends. -/
theorem section_ends (hJ : P.Contract inside J) (hQ : P.Keeps R Q)
    (hrank : P.Ranked inside Q A rank) (hs : R s₀) {t : T} {more : List (T × α)} :
    ∀ {w : World T σ π} {outs : List (Option (T × π))},
      InTurn P (Keeping J R Q) inside s₀ w outs → w.holder = some t →
      (∀ a, (t, a) ∈ more → A a) → rank w.shared (w.own t) < (more.map Prod.fst).count t →
      ((threads P).final w more).exited = true ∨ ∃ x, some (t, x) ∈ (threads P).outputs w more := by
  induction more with
  | nil =>
    intro w outs _ _ _ hmany
    exact absurd hmany (Nat.not_lt_zero _)
  | cons ua more ih =>
    obtain ⟨u, a⟩ := ua
    intro w outs h hin hanswers hmany
    have hnext := h.step (hJ.keeping hQ) (u, a)
    have hrest (b : α) (hb : (t, b) ∈ more) : A b := hanswers b (List.mem_cons_of_mem _ hb)
    rw [List.map_cons, List.count_cons] at hmany
    rw [Machine.final_cons, Machine.outputs_cons]
    -- the rest of the run ends the section, if this statement does not
    have hgo (hholder : ((threads P).step w (u, a)).1.holder = some t)
        (hlt : rank ((threads P).step w (u, a)).1.shared (((threads P).step w (u, a)).1.own t) <
          (more.map Prod.fst).count t) :
        ((threads P).final ((threads P).step w (u, a)).1 more).exited = true ∨
          ∃ x, some (t, x) ∈ ((threads P).step w (u, a)).2 ::
            (threads P).outputs ((threads P).step w (u, a)).1 more := by
      rcases ih hnext hholder hrest hlt with hexited | ⟨x, hx⟩
      · exact Or.inl hexited
      · exact Or.inr ⟨x, List.mem_cons_of_mem _ hx⟩
    by_cases hu : u = t
    · subst hu
      simp only [beq_self_eq_true, if_true] at hmany
      rcases h.step_holder (hJ.keeping hQ) hrank hin (h.holder_keeps hQ hs hin)
        (hanswers a List.mem_cons_self) with hexited | ⟨x, hx⟩ | ⟨hholder, hlt⟩
      · exact Or.inl (exited_final hexited more)
      · refine Or.inr ⟨x, ?_⟩
        rw [← hx]
        exact List.mem_cons_self
      · exact hgo hholder (by omega)
    · simp only [beq_iff_eq, if_neg hu, Nat.add_zero] at hmany
      obtain ⟨hholder, hshared, hown⟩ := h.step_other (hJ.keeping hQ) hin hu a
      refine hgo hholder ?_
      rw [hshared, hown]
      exact hmany

end LockedSections
