import ProvenAesd.MealyRuns

/-! A first-in first-out queue of bounded length that makes room by evicting its
oldest element, and its layout in a ring of slots. -/
namespace BoundedQueue
open Mealy

variable {α : Type*}

def push (cap : ℕ) (q : List α) (x : α) : List α × Option α :=
  if q.length < cap then (q ++ [x], none) else (q.tail ++ [x], q.head?)

def queue (cap : ℕ) : Machine (List α) α (Option α) := ⟨push cap⟩

@[simp] theorem queue_step (cap : ℕ) (q : List α) (x : α) :
    (queue cap).step q x = push cap q x := rfl

theorem push_of_lt {cap : ℕ} {q : List α} (h : q.length < cap) (x : α) :
    push cap q x = (q ++ [x], none) := if_pos h

theorem push_of_le {cap : ℕ} {q : List α} (h : cap ≤ q.length) (x : α) :
    push cap q x = (q.tail ++ [x], q.head?) := if_neg (by omega)

/-- Nothing is lost or moved: what leaves the queue and what stays is what was
there, followed by the new element. -/
theorem push_conserves (cap : ℕ) (q : List α) (x : α) (hc : 0 < cap) :
    (push cap q x).2.toList ++ (push cap q x).1 = q ++ [x] := by
  by_cases h : q.length < cap
  · simp [push_of_lt h]
  · rw [push_of_le (Nat.le_of_not_lt h)]
    cases q with
    | nil => simp only [List.length_nil] at h; omega
    | cons a q => simp

theorem push_extends {cap : ℕ} {q : List α} {x : α} (hc : 0 < cap) (h : (push cap q x).2 = none) :
    q <+: (push cap q x).1 := by
  have hconserve := push_conserves cap q x hc
  rw [h] at hconserve
  exact ⟨[x], hconserve.symm⟩

theorem push_getLast (cap : ℕ) (q : List α) (x : α) :
    (push cap q x).1.getLast? = some x := by
  unfold push
  split <;> simp

theorem push_map {β : Type*} (f : α → β) (cap : ℕ) (q : List α) (x : α) :
    push cap (q.map f) (f x) = ((push cap q x).1.map f, (push cap q x).2.map f) := by
  unfold push
  by_cases h : q.length < cap <;> simp [h, List.map_tail]

/-- A run from the empty queue keeps exactly the last `cap` elements, in order. -/
theorem queue_final (cap : ℕ) (hc : 0 < cap) (xs : List α) :
    (queue cap).final [] xs = xs.drop (xs.length-cap) := by
  induction xs using List.reverseRecOn with
  | nil => simp
  | append_singleton xs x ih =>
    rw [Machine.final_append, ih]
    simp only [Machine.final_cons, Machine.final_nil, queue_step]
    by_cases h : xs.length < cap
    · -- there is still room, and nothing has been dropped so far
      rw [push_of_lt (by simp only [List.length_drop]; omega)]
      simp [show xs.length-cap = 0 by omega, show xs.length+1-cap = 0 by omega]
    · have hlen : (xs ++ [x]).length-cap = xs.length-cap+1 := by
        simp only [List.length_append, List.length_singleton]
        omega
      rw [push_of_le (by simp only [List.length_drop]; omega), List.tail_drop, hlen,
        List.drop_append_of_le_length (by omega)]

/-- The first `cap` pushes evict nothing; after that every push evicts the
element that was pushed `cap` pushes before. -/
theorem queue_outputs (cap : ℕ) (hc : 0 < cap) (xs : List α) :
    (queue cap).outputs [] xs =
      List.replicate (min xs.length cap) none ++ (xs.take (xs.length-cap)).map some := by
  induction xs using List.reverseRecOn with
  | nil => simp
  | append_singleton xs x ih =>
    rw [Machine.outputs_append, ih, queue_final cap hc]
    simp only [Machine.outputs_cons, Machine.outputs_nil, queue_step, List.length_append,
      List.length_singleton]
    by_cases h : xs.length < cap
    -- one more `none` as long as there is room, then one more element of `xs`
    · rw [push_of_lt (by simp only [List.length_drop]; omega),
        show xs.length-cap = 0 by omega, show xs.length+1-cap = 0 by omega,
        show min (xs.length+1) cap = min xs.length cap+1 by omega]
      simp [List.replicate_succ']
    · have hlt : xs.length-cap < xs.length := by omega
      rw [push_of_le (by simp only [List.length_drop]; omega),
        show min (xs.length+1) cap = min xs.length cap by omega,
        show xs.length+1-cap = xs.length-cap+1 by omega,
        List.take_append_of_le_length (by omega), List.take_succ_eq_append_getElem hlt,
        List.map_append, List.append_assoc, List.head?_drop, List.getElem?_eq_getElem hlt]
      rfl

/-- Evictions followed by the contents give back everything pushed, once and in order. -/
theorem queue_conserves (cap : ℕ) (hc : 0 < cap) (q xs : List α) :
    ((queue cap).outputs q xs).reduceOption ++ (queue cap).final q xs = q ++ xs := by
  induction xs generalizing q with
  | nil => simp
  | cons x xs ih =>
    have h := push_conserves cap q x hc
    have ho (o : Option α) (os : List (Option α)) :
        (o :: os).reduceOption = o.toList ++ os.reduceOption := by cases o <;> simp
    simp only [Machine.outputs_cons, Machine.final_cons, queue_step, ho, List.append_assoc, ih]
    rw [← List.append_assoc, h, List.append_assoc, List.singleton_append]

/-! A ring of `cap` slots read from `start`. -/

def window (f : ℕ → α) (cap start n : ℕ) : List α :=
  (List.range n).map fun i => f ((start+i)%cap)

@[simp] theorem window_zero (f : ℕ → α) (cap start : ℕ) : window f cap start 0 = [] := rfl

@[simp] theorem window_length (f : ℕ → α) (cap start n : ℕ) :
    (window f cap start n).length = n := by simp [window]

@[simp] theorem window_getElem (f : ℕ → α) (cap start n i : ℕ)
    (hi : i < (window f cap start n).length) :
    (window f cap start n)[i] = f ((start+i)%cap) := by simp [window]

theorem window_succ (f : ℕ → α) (cap start n : ℕ) :
    window f cap start (n+1) = window f cap start n ++ [f ((start+n)%cap)] := by
  simp [window, List.range_succ]

theorem window_cons (f : ℕ → α) (cap start n : ℕ) :
    window f cap start (n+1) = f (start%cap) :: window f cap (start+1) n := by
  simp [window, List.range_succ_eq_map, Function.comp_def, Nat.add_assoc, Nat.add_comm 1]

theorem window_mod (f : ℕ → α) (cap start n : ℕ) :
    window f cap (start%cap) n = window f cap start n := by simp [window]

theorem window_congr {f g : ℕ → α} {cap start n : ℕ}
    (h : ∀ i < n, f ((start+i)%cap) = g ((start+i)%cap)) :
    window f cap start n = window g cap start n :=
  List.map_congr_left fun i hi => h i (List.mem_range.mp hi)

theorem ring_index_ne {cap start i n : ℕ} (hi : i < n) (hn : n < cap) :
    (start+i)%cap ≠ (start+n)%cap := by
  intro h
  have hd : (start+n-(start+i))%cap = 0 := Nat.sub_mod_eq_zero_of_mod_eq h.symm
  rw [Nat.add_sub_add_left, Nat.mod_eq_of_lt (by omega)] at hd
  omega

/-- The last slot of a ring read from the next start is the first one read so far. -/
theorem ring_last (start n : ℕ) : (start+1+n)%(n+1) = start%(n+1) := by
  rw [show start+1+n = start+(n+1) by omega, Nat.add_mod_right]

/-- Writing the free slot after the window appends one element to it. -/
theorem window_update_push (f : ℕ → α) {cap n : ℕ} (start : ℕ) (hn : n < cap) (x : α) :
    window (Function.update f ((start+n)%cap) x) cap start (n+1) = window f cap start n ++ [x] := by
  rw [window_succ, Function.update_self]
  congr 1
  exact window_congr fun i hi => Function.update_of_ne (ring_index_ne hi hn) _ _

/-- Overwriting the oldest slot of a full ring and starting behind it drops the
oldest element and appends the new one. -/
theorem window_update_full (f : ℕ → α) {cap : ℕ} (start : ℕ) (hc : 0 < cap) (x : α) :
    window (Function.update f (start%cap) x) cap (start+1) cap =
      (window f cap start cap).tail ++ [x] := by
  obtain ⟨n, rfl⟩ : ∃ n, cap = n+1 := ⟨cap-1, by omega⟩
  have hlast := ring_last start n
  have hkeep : window (Function.update f (start%(n+1)) x) (n+1) (start+1) n =
      window f (n+1) (start+1) n :=
    window_congr fun i hi => by
      rw [← hlast]
      exact Function.update_of_ne (ring_index_ne hi (by omega)) _ _
  rw [window_succ, hkeep, hlast, Function.update_self, window_cons f, List.tail_cons]

/-- All slots of a ring, wherever the reading starts. -/
theorem window_perm (f : ℕ → α) (cap start : ℕ) :
    (window f cap start cap).Perm ((List.range cap).map f) := by
  induction start with
  | zero =>
    apply List.Perm.of_eq
    apply List.map_congr_left
    intro i hi
    rw [Nat.zero_add, Nat.mod_eq_of_lt (List.mem_range.mp hi)]
  | succ start ih =>
    cases cap with
    | zero => exact List.Perm.nil
    | succ n =>
      -- a step of the start moves the first slot to the end
      apply List.Perm.trans _ ih
      rw [window_succ, ring_last, window_cons f (n+1) start n]
      exact List.perm_append_singleton _ _

end BoundedQueue
