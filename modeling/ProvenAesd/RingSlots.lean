import ProvenAesd.BoundedQueue

/-! The newest elements of a history in a ring: in the order of their age, and in
that of the slots they lie in. -/
namespace BoundedQueue
open Mealy

variable {α β : Type*}

def newest (cap : ℕ) (xs : List α) : List α := xs.drop (xs.length-cap)

theorem newest_concat {cap : ℕ} (hc : 0 < cap) (xs : List α) (x : α) :
    (push cap (newest cap xs) x).1 = newest cap (xs ++ [x]) := by
  rw [newest, newest, ← queue_final cap hc, ← queue_final cap hc, Machine.final_append]
  rfl

theorem newest_length (cap : ℕ) (xs : List α) : (newest cap xs).length = min xs.length cap := by
  rw [newest, List.length_drop]
  omega

theorem newest_of_le {cap : ℕ} {xs : List α} (h : xs.length ≤ cap) : newest cap xs = xs := by
  rw [newest, Nat.sub_eq_zero_of_le h, List.drop_zero]

theorem flatten_newest (cap : ℕ) (xss : List (List α)) :
    xss.flatten = (xss.take (xss.length-cap)).flatten ++ (newest cap xss).flatten := by
  rw [newest, ← List.flatten_append, List.take_append_drop]

/-- What a position among the newest lines means in the whole history. -/
theorem newest_flatten_drop (cap : ℕ) (xss : List (List α)) (p : ℕ) :
    (newest cap xss).flatten.drop p =
      xss.flatten.drop ((xss.take (xss.length-cap)).flatten.length+p) := by
  rw [flatten_newest cap xss, ← List.drop_drop, List.drop_left]

/-- The newest elements as they lie in the slots, when slot 0 was filled first. -/
def slotOrder (cap : ℕ) (xs : List α) : List α :=
  if xs.length < cap then xs else (newest cap xs).rotate (cap-xs.length%cap)

/-- The slots hold no more than has been written. -/
theorem slotOrder_flatten_le (cap : ℕ) (xss : List (List α)) :
    (slotOrder cap xss).flatten.length ≤ xss.flatten.length := by
  unfold slotOrder
  split_ifs
  · exact le_rfl
  · have hperm := ((newest cap xss).rotate_perm (cap-xss.length%cap)).flatten
    rw [hperm.length_eq, flatten_newest cap xss, List.length_append]
    exact Nat.le_add_left ..

theorem window_map (g : α → β) (f : ℕ → α) (cap start n : ℕ) :
    (window f cap start n).map g = window (g ∘ f) cap start n := by
  simp [window]

/-- From slot `r` on, the slots are read `cap - r` places ahead of slot 0. -/
theorem ring_index_rotate {cap r i : ℕ} (hr : r < cap) (hi : i < cap) :
    (r+(i+(cap-r))%cap)%cap = i := by
  by_cases hlt : i < r
  · rw [Nat.mod_eq_of_lt (by omega : i+(cap-r) < cap), show r+(i+(cap-r)) = i+cap by omega,
      Nat.add_mod_right, Nat.mod_eq_of_lt hi]
  · rw [show i+(cap-r) = i-r+cap by omega, Nat.add_mod_right,
      Nat.mod_eq_of_lt (by omega : i-r < cap), Nat.add_sub_cancel' (by omega), Nat.mod_eq_of_lt hi]

/-- The slots in use, read from slot 0 on. -/
theorem slots_of_window {f : ℕ → α} {cap start : ℕ} {xs : List α} (hstart : start < cap)
    (hnext : (start+min xs.length cap)%cap = xs.length%cap)
    (hwindow : window f cap start (min xs.length cap) = newest cap xs) :
    (List.range (min xs.length cap)).map f = slotOrder cap xs := by
  unfold slotOrder
  by_cases hlt : xs.length < cap
  · -- the ring has not been full yet, and is read from slot 0 on
    rw [min_eq_left hlt.le] at hnext hwindow ⊢
    have hzero : start = 0 := by
      rw [Nat.mod_eq_of_lt hlt] at hnext
      by_contra hne
      by_cases hfit : start+xs.length < cap
      · rw [Nat.mod_eq_of_lt hfit] at hnext
        omega
      · rw [Nat.mod_eq_sub_mod (by omega), Nat.mod_eq_of_lt (by omega)] at hnext
        omega
    rw [hzero, newest_of_le hlt.le] at hwindow
    rw [if_pos hlt]
    refine Eq.trans ?_ hwindow
    apply List.map_congr_left
    intro i hi
    have hi' := List.mem_range.mp hi
    rw [Nat.zero_add, Nat.mod_eq_of_lt (by omega)]
  · rw [min_eq_right (by omega)] at hnext hwindow ⊢
    have hr : start = xs.length%cap := by
      rwa [Nat.add_mod_right, Nat.mod_eq_of_lt hstart] at hnext
    rw [if_neg hlt, ← hwindow, ← hr]
    apply List.ext_getElem
    · simp
    · intro i hi _
      have hi' : i < cap := by simpa using hi
      rw [List.getElem_rotate, window_getElem, List.getElem_map, List.getElem_range, window_length,
        ring_index_rotate hstart hi']

end BoundedQueue
