import Mathlib

/-! Singly linked lists in memory: the elements met when following the links from a
pointer to NULL, and what becomes of them when one link is stored anew. -/
namespace SinglyLinked

variable {α : Type*} {next next' : α → Option α} {p q : Option α} {x y : α} {xs ys pre post : List α}

/-- The links from `p` on lead through `xs` to NULL. -/
def Linked (next : α → Option α) : Option α → List α → Prop
  | p, [] => p = none
  | p, x :: xs => p = some x ∧ Linked next (next x) xs

@[simp] theorem linked_nil : Linked next p [] ↔ p = none := Iff.rfl

@[simp] theorem linked_cons : Linked next p (x :: xs) ↔ p = some x ∧ Linked next (next x) xs := Iff.rfl

namespace Linked

theorem start_eq (h : Linked next p xs) : p = xs.head? := by
  cases xs with
  | nil => exact h
  | cons x xs => exact h.1

theorem congr (h : Linked next p xs) (hnext : ∀ x ∈ xs, next' x = next x) : Linked next' p xs := by
  induction xs generalizing p with
  | nil => exact h
  | cons x xs ih =>
    refine ⟨h.1, ?_⟩
    rw [hnext x List.mem_cons_self]
    exact ih h.2 fun y hy => hnext y (List.mem_cons_of_mem x hy)

/-- What follows an element of the list. -/
theorem rest (h : Linked next p (pre ++ x :: post)) : Linked next (next x) post := by
  induction pre generalizing p with
  | nil => exact h.2
  | cons y pre ih => exact ih h.2

theorem unique (h : Linked next p xs) (h' : Linked next p ys) : xs = ys := by
  induction xs generalizing p ys with
  | nil =>
    cases ys with
    | nil => rfl
    | cons y ys =>
      have hnull := h'.1
      rw [linked_nil.mp h] at hnull
      cases hnull
  | cons x xs ih =>
    cases ys with
    | nil =>
      have hnull := h.1
      rw [linked_nil.mp h'] at hnull
      cases hnull
    | cons y ys =>
      have hxy : x = y := Option.some.inj (h.1.symm.trans h'.1)
      subst hxy
      rw [ih h.2 h'.2]

theorem start_mem (h : Linked next p (pre ++ y :: post)) (hp : p = some x) : x ∈ pre ++ [y] := by
  cases pre with
  | nil =>
    have hy : y = x := Option.some.inj (h.1.symm.trans hp)
    simp [hy]
  | cons z pre =>
    have hz : z = x := Option.some.inj (h.1.symm.trans hp)
    simp [hz]

/-- An element met twice would be met for ever. -/
theorem nodup (h : Linked next p xs) : xs.Nodup := by
  induction xs generalizing p with
  | nil => exact List.nodup_nil
  | cons x xs ih =>
    refine List.nodup_cons.mpr ⟨?_, ih h.2⟩
    intro hmem
    obtain ⟨pre, post, hsplit⟩ := List.append_of_mem hmem
    have hrest : Linked next (next x) post := rest (hsplit ▸ h.2)
    have hsame := congrArg List.length (hrest.unique h.2)
    rw [hsplit, List.length_append, List.length_cons] at hsame
    omega

variable [DecidableEq α]

theorem update_of_not_mem (h : Linked next p xs) (hx : x ∉ xs) (q : Option α) :
    Linked (Function.update next x q) p xs := by
  apply h.congr
  intro y hy
  apply Function.update_of_ne
  rintro rfl
  exact hx hy

/-- A new link from `x` replaces what came behind it. -/
theorem redirect (h : Linked next p (pre ++ x :: post)) (hq : Linked next q ys) (hx : x ∉ ys) :
    Linked (Function.update next x q) p (pre ++ x :: ys) := by
  have hnodup := h.nodup
  induction pre generalizing p with
  | nil =>
    refine ⟨h.1, ?_⟩
    rw [Function.update_self]
    exact hq.update_of_not_mem hx q
  | cons y pre ih =>
    rw [List.cons_append, List.nodup_cons] at hnodup
    refine ⟨h.1, ?_⟩
    have hne : y ≠ x := by
      rintro rfl
      exact hnodup.1 (by simp)
    rw [Function.update_of_ne hne]
    exact ih h.2 hnodup.2

end Linked

/-! The same changes of a list, without links. -/

variable [DecidableEq α]

def insertAfter (y x : α) : List α → List α
  | [] => []
  | z :: zs => if z = y then z :: x :: zs else z :: insertAfter y x zs

def removeAfter (y : α) : List α → List α
  | [] => []
  | z :: zs => if z = y then z :: zs.tail else z :: removeAfter y zs

theorem insertAfter_append (hy : y ∉ pre) :
    insertAfter y x (pre ++ y :: post) = pre ++ y :: x :: post := by
  induction pre with
  | nil => simp [insertAfter]
  | cons z pre ih =>
    rw [List.mem_cons, not_or] at hy
    rw [List.cons_append, insertAfter, if_neg (Ne.symm hy.1), ih hy.2]
    rfl

theorem insertAfter_of_not_mem (hy : y ∉ xs) : insertAfter y x xs = xs := by
  induction xs with
  | nil => rfl
  | cons z xs ih =>
    rw [List.mem_cons, not_or] at hy
    rw [insertAfter, if_neg (Ne.symm hy.1), ih hy.2]

theorem removeAfter_append (hy : y ∉ pre) :
    removeAfter y (pre ++ y :: post) = pre ++ y :: post.tail := by
  induction pre with
  | nil => simp [removeAfter]
  | cons z pre ih =>
    rw [List.mem_cons, not_or] at hy
    rw [List.cons_append, removeAfter, if_neg (Ne.symm hy.1), ih hy.2]
    rfl

theorem removeAfter_of_not_mem (hy : y ∉ xs) : removeAfter y xs = xs := by
  induction xs with
  | nil => rfl
  | cons z xs ih =>
    rw [List.mem_cons, not_or] at hy
    rw [removeAfter, if_neg (Ne.symm hy.1), ih hy.2]

end SinglyLinked
