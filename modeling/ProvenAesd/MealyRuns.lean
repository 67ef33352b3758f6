import Mathlib

/-! Deterministic machines that answer every input, and the induction rules for
what holds along their runs. -/
namespace Mealy

/-- A machine answers each input with a new state and an output. -/
structure Machine (σ ι ω : Type*) where
  step : σ → ι → σ × ω

namespace Machine

variable {σ ι ω τ κ ν : Type*} (M : Machine σ ι ω)

def final (s : σ) : List ι → σ
  | [] => s
  | i :: is => final (M.step s i).1 is

def outputs (s : σ) : List ι → List ω
  | [] => []
  | i :: is => (M.step s i).2 :: outputs (M.step s i).1 is

/-- Every step of the run starts in a state that allows its input. -/
def Guarded (G : σ → ι → Prop) (s : σ) : List ι → Prop
  | [] => True
  | i :: is => G s i ∧ Guarded G (M.step s i).1 is

instance decidableGuarded (G : σ → ι → Prop) [∀ s i, Decidable (G s i)] (s : σ) :
    (is : List ι) → Decidable (M.Guarded G s is)
  | [] => inferInstanceAs (Decidable True)
  | i :: is =>
    haveI := decidableGuarded G (M.step s i).1 is
    inferInstanceAs (Decidable (_ ∧ _))

def Reachable (s t : σ) : Prop := ∃ is, M.final s is = t

@[simp] theorem final_nil (s : σ) : M.final s [] = s := rfl

@[simp] theorem final_cons (s : σ) (i : ι) (is : List ι) :
    M.final s (i :: is) = M.final (M.step s i).1 is := rfl

@[simp] theorem outputs_nil (s : σ) : M.outputs s [] = [] := rfl

@[simp] theorem outputs_cons (s : σ) (i : ι) (is : List ι) :
    M.outputs s (i :: is) = (M.step s i).2 :: M.outputs (M.step s i).1 is := rfl

@[simp] theorem guarded_nil (G : σ → ι → Prop) (s : σ) : M.Guarded G s [] := trivial

@[simp] theorem guarded_cons (G : σ → ι → Prop) (s : σ) (i : ι) (is : List ι) :
    M.Guarded G s (i :: is) ↔ G s i ∧ M.Guarded G (M.step s i).1 is := Iff.rfl

@[simp] theorem final_append (s : σ) (is js : List ι) :
    M.final s (is ++ js) = M.final (M.final s is) js := by
  induction is generalizing s with
  | nil => rfl
  | cons i is ih => exact ih _

@[simp] theorem outputs_append (s : σ) (is js : List ι) :
    M.outputs s (is ++ js) = M.outputs s is ++ M.outputs (M.final s is) js := by
  induction is generalizing s with
  | nil => rfl
  | cons i is ih => exact congrArg (_ :: ·) (ih _)

@[simp] theorem guarded_append (G : σ → ι → Prop) (s : σ) (is js : List ι) :
    M.Guarded G s (is ++ js) ↔ M.Guarded G s is ∧ M.Guarded G (M.final s is) js := by
  induction is generalizing s with
  | nil => simp
  | cons i is ih => simp [ih, and_assoc]

@[simp] theorem guarded_true (s : σ) (is : List ι) : M.Guarded (fun _ _ => True) s is := by
  induction is generalizing s with
  | nil => trivial
  | cons i is ih => exact ⟨trivial, ih _⟩

theorem Guarded.mono {M : Machine σ ι ω} {G H : σ → ι → Prop} {s : σ} {is : List ι}
    (h : M.Guarded G s is) (hGH : ∀ s i, G s i → H s i) : M.Guarded H s is := by
  induction is generalizing s with
  | nil => trivial
  | cons i is ih => exact ⟨hGH _ _ h.1, ih h.2⟩

/-- What every allowed step preserves holds at the end of a guarded run. -/
theorem Guarded.invariant {M : Machine σ ι ω} {G : σ → ι → Prop} {s : σ} {is : List ι}
    (h : M.Guarded G s is) (I : σ → Prop)
    (hstep : ∀ s i, I s → G s i → I (M.step s i).1) (hs : I s) : I (M.final s is) := by
  induction is generalizing s with
  | nil => exact hs
  | cons i is ih => exact ih h.2 (hstep s i hs h.1)

theorem Reachable.invariant {M : Machine σ ι ω} {s t : σ} (h : M.Reachable s t) (I : σ → Prop)
    (hstep : ∀ s i, I s → I (M.step s i).1) (hs : I s) : I t := by
  obtain ⟨is, rfl⟩ := h
  induction is generalizing s with
  | nil => exact hs
  | cons i is ih => exact ih (hstep s i hs)

/-- An invariant over the state and the whole history: the inputs given so far
and the outputs they produced. -/
theorem Guarded.history {M : Machine σ ι ω} {G : σ → ι → Prop} {s : σ} {is : List ι}
    (h : M.Guarded G s is) (I : σ → List ι → List ω → Prop) (hs : I s [] [])
    (hstep : ∀ s is os i, I s is os → G s i →
      I (M.step s i).1 (is ++ [i]) (os ++ [(M.step s i).2])) :
    I (M.final s is) is (M.outputs s is) := by
  induction is using List.reverseRecOn with
  | nil => exact hs
  | append_singleton is i ih =>
    obtain ⟨hi, hg⟩ := (M.guarded_append G s is [i]).mp h
    simpa using hstep _ _ _ i (ih hi) hg.1

/-- A property of the record that allowed steps keep, that the first other step breaks,
and that does not come back, tells whether the run was guarded. -/
theorem guarded_iff_record {M : Machine σ ι ω} {G : σ → ι → Prop} {I : σ → List ω → Prop}
    {P : List ω → Prop} {s : σ} (hs : I s [])
    (hstep : ∀ s os i, I s os → G s i → I (M.step s i).1 (os ++ [(M.step s i).2]))
    (hholds : ∀ s os, I s os → P os)
    (hbreaks : ∀ s os i, I s os → ¬G s i → ¬P (os ++ [(M.step s i).2]))
    (hlost : ∀ os o, P (os ++ [o]) → P os) (is : List ι) :
    M.Guarded G s is ↔ P (M.outputs s is) := by
  induction is using List.reverseRecOn with
  | nil => exact iff_of_true trivial (hholds s [] hs)
  | append_singleton is i ih =>
    rw [guarded_append, outputs_append]
    constructor
    · rintro ⟨hg, hi, -⟩
      have hI := hg.history (fun s _ os => I s os) hs fun s _ os i hI hG => hstep s os i hI hG
      exact hholds _ _ (hstep _ _ i hI hi)
    · intro hP
      have hg := ih.mpr (hlost _ _ hP)
      have hI := hg.history (fun s _ os => I s os) hs fun s _ os i hI hG => hstep s os i hI hG
      by_contra hnot
      exact hbreaks _ _ i hI (fun hi => hnot ⟨hg, hi, trivial⟩) hP

/-- Where every state of a run tells its allowed inputs by their outputs, the run
is guarded exactly when all its outputs are as they should be. -/
theorem Guarded.iff_outputs {M : Machine σ ι ω} {G H : σ → ι → Prop} {P : ω → Prop} {s : σ}
    {is : List ι} (h : M.Guarded H s is) (I : σ → Prop)
    (hstep : ∀ s i, I s → H s i → I (M.step s i).1)
    (hiff : ∀ s i, I s → H s i → (G s i ↔ P (M.step s i).2)) (hs : I s) :
    M.Guarded G s is ↔ ∀ o ∈ M.outputs s is, P o := by
  induction is generalizing s with
  | nil => simp
  | cons i is ih =>
    rw [guarded_cons, outputs_cons, List.forall_mem_cons, hiff s i hs h.1,
      ih h.2 (hstep s i hs h.1)]

/-- Where each step of a run keeps `P` exactly when it is allowed, `P` tells at the
end whether the run was guarded. -/
theorem Guarded.iff_final {M : Machine σ ι ω} {G H : σ → ι → Prop} {P : σ → Prop} {s : σ}
    {is : List ι} (h : M.Guarded H s is) (I : σ → Prop)
    (hstep : ∀ s i, I s → H s i → I (M.step s i).1)
    (hiff : ∀ s i, I s → H s i → (P (M.step s i).1 ↔ P s ∧ G s i)) (hs : I s) :
    P (M.final s is) ↔ P s ∧ M.Guarded G s is := by
  induction is generalizing s with
  | nil => simp
  | cons i is ih =>
    rw [final_cons, guarded_cons, ih h.2 (hstep s i hs h.1), hiff s i hs h.1, and_assoc]

/-! A machine and another one that it carries along in a part of its state. -/

section Project

variable {M} {N : Machine τ ι ν} {f : σ → τ}
  (hstep : ∀ s i, f (M.step s i).1 = (N.step (f s) i).1)

include hstep

theorem final_project (s : σ) (is : List ι) : f (M.final s is) = N.final (f s) is := by
  induction is generalizing s with
  | nil => rfl
  | cons i is ih => rw [final_cons, final_cons, ih, hstep]

theorem guarded_project (G : τ → ι → Prop) (s : σ) (is : List ι) :
    M.Guarded (fun s i => G (f s) i) s is ↔ N.Guarded G (f s) is := by
  induction is generalizing s with
  | nil => exact Iff.rfl
  | cons i is ih => rw [guarded_cons, guarded_cons, ih, hstep]

end Project

/-- A step simulation carries over to runs: related states stay related, and the
outputs agree under the translation `g`. -/
theorem Guarded.simulation {M : Machine σ ι ω} {G : σ → ι → Prop} {s : σ} {is : List ι}
    (h : M.Guarded G s is) (N : Machine τ κ ν) (R : σ → τ → Prop) (f : ι → κ) (g : ω → ν)
    (hstep : ∀ s t i, R s t → G s i → R (M.step s i).1 (N.step t (f i)).1 ∧
      g (M.step s i).2 = (N.step t (f i)).2) {t : τ} (hs : R s t) :
    R (M.final s is) (N.final t (is.map f)) ∧
      (M.outputs s is).map g = N.outputs t (is.map f) := by
  induction is generalizing s t with
  | nil => exact ⟨hs, rfl⟩
  | cons i is ih =>
    obtain ⟨hR, ho⟩ := hstep s t i hs h.1
    obtain ⟨hf, hos⟩ := ih h.2 hR
    exact ⟨hf, by simp [ho, hos]⟩

/-- The same for outputs that are related to each other. -/
theorem Guarded.simulates {M : Machine σ ι ω} {G : σ → ι → Prop} {s : σ} {is : List ι}
    (h : M.Guarded G s is) (N : Machine τ κ ν) (R : σ → τ → Prop) (f : ι → κ) (Q : ω → ν → Prop)
    (hstep : ∀ s t i, R s t → G s i → R (M.step s i).1 (N.step t (f i)).1 ∧
      Q (M.step s i).2 (N.step t (f i)).2) {t : τ} (hs : R s t) :
    R (M.final s is) (N.final t (is.map f)) ∧
      List.Forall₂ Q (M.outputs s is) (N.outputs t (is.map f)) := by
  induction is generalizing s t with
  | nil => exact ⟨hs, List.Forall₂.nil⟩
  | cons i is ih =>
    obtain ⟨hR, hQ⟩ := hstep s t i hs h.1
    obtain ⟨hf, hos⟩ := ih h.2 hR
    exact ⟨hf, List.Forall₂.cons hQ hos⟩

end Machine

end Mealy
