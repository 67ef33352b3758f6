import ProvenAesd.BoundedQueue

/-! A store that collects data into lines: what is written waits until a write
leaves the separator as the last element, and the last `cap` lines are kept. -/
namespace LineStore
open Mealy BoundedQueue

variable {α : Type*}

structure Store (α : Type*) where
  lines : List (List α)
  pending : List α

def Store.empty : Store α := ⟨[], []⟩

structure Reply (α : Type*) where
  committed : Option (List α)
  lost : Option (List α)

/-- The history of a run: the committed lines went through the queue, and with
the pending tail they spell out everything written. -/
structure History (sep : α) (cap : ℕ) (s : Store α) (data : List (List α))
    (replies : List (Reply α)) : Prop where
  spelled : (replies.filterMap Reply.committed).flatten ++ s.pending = data.flatten
  queued : s.lines = (queue cap).final [] (replies.filterMap Reply.committed)
  evicted : replies.filterMap Reply.lost =
    ((queue cap).outputs [] (replies.filterMap Reply.committed)).reduceOption
  ended : ∀ l ∈ replies.filterMap Reply.committed, l.getLast? = some sep
  open_tail : s.pending.getLast? ≠ some sep

section History

variable {sep : α} {cap : ℕ} {s : Store α} {data : List (List α)} {replies : List (Reply α)}

theorem History.lost_or_kept (h : History sep cap s data replies) (hc : 0 < cap) :
    replies.filterMap Reply.lost ++ s.lines = replies.filterMap Reply.committed := by
  rw [h.evicted, h.queued, queue_conserves cap hc, List.nil_append]

/-- Evicted lines, kept lines and the pending tail together are what was written. -/
theorem History.conserved (h : History sep cap s data replies) (hc : 0 < cap) :
    (replies.filterMap Reply.lost).flatten ++ s.lines.flatten ++ s.pending = data.flatten := by
  rw [← h.spelled, ← h.lost_or_kept hc, List.flatten_append]

theorem History.lines_length (h : History sep cap s data replies) (hc : 0 < cap) :
    s.lines.length = min cap (replies.filterMap Reply.committed).length := by
  rw [h.queued, queue_final cap hc, List.length_drop]
  omega

end History

variable [DecidableEq α]

def write (sep : α) (cap : ℕ) (s : Store α) (data : List α) : Store α × Reply α :=
  let line := s.pending ++ data
  if line.getLast? = some sep then
    (⟨(push cap s.lines line).1, []⟩, ⟨some line, (push cap s.lines line).2⟩)
  else (⟨s.lines, line⟩, ⟨none, none⟩)

def store (sep : α) (cap : ℕ) : Machine (Store α) (List α) (Reply α) := ⟨write sep cap⟩

theorem write_of_last {sep : α} {cap : ℕ} {s : Store α} {data : List α}
    (h : (s.pending ++ data).getLast? = some sep) :
    write sep cap s data =
      (⟨(push cap s.lines (s.pending ++ data)).1, []⟩,
        ⟨some (s.pending ++ data), (push cap s.lines (s.pending ++ data)).2⟩) := if_pos h

theorem write_of_not_last {sep : α} {cap : ℕ} {s : Store α} {data : List α}
    (h : (s.pending ++ data).getLast? ≠ some sep) :
    write sep cap s data = (⟨s.lines, s.pending ++ data⟩, ⟨none, none⟩) := if_neg h

theorem write_cases (sep : α) (cap : ℕ) (s : Store α) {data : List α} (hne : data ≠ []) :
    (data.getLast? = some sep ∧
      (write sep cap s data).1 = ⟨(push cap s.lines (s.pending ++ data)).1, []⟩) ∨
    (data.getLast? ≠ some sep ∧ (write sep cap s data).1 = ⟨s.lines, s.pending ++ data⟩) := by
  have hlast : (s.pending ++ data).getLast? = data.getLast? :=
    List.getLast?_append_of_ne_nil s.pending hne
  by_cases h : data.getLast? = some sep
  · rw [write_of_last (hlast.trans h)]
    exact Or.inl ⟨h, rfl⟩
  · rw [write_of_not_last (hlast ▸ h)]
    exact Or.inr ⟨h, rfl⟩

/-- What has been written last can be told from the store it leaves. -/
theorem write_injective {sep : α} {cap : ℕ} {s : Store α} {xs ys : List α} (hxs : xs ≠ [])
    (hys : ys ≠ []) (h : (write sep cap s xs).1 = (write sep cap s ys).1) : xs = ys := by
  rcases write_cases sep cap s hxs with ⟨-, hx⟩ | ⟨-, hx⟩ <;>
    rcases write_cases sep cap s hys with ⟨-, hy⟩ | ⟨-, hy⟩ <;>
    rw [hx, hy] at h
  · have hlast := congrArg (fun st : Store α => st.lines.getLast?) h
    simp only [push_getLast, Option.some.injEq] at hlast
    exact List.append_cancel_left hlast
  · have hpending : [] = s.pending ++ ys := congrArg Store.pending h
    exact absurd (List.append_eq_nil_iff.mp hpending.symm).2 hys
  · have hpending : s.pending ++ xs = [] := congrArg Store.pending h
    exact absurd (List.append_eq_nil_iff.mp hpending).2 hxs
  · have hpending : s.pending ++ xs = s.pending ++ ys := congrArg Store.pending h
    exact List.append_cancel_left hpending

/-- A write that leaves the line open and the write after it are one write. -/
theorem write_append {sep : α} (cap : ℕ) (s : Store α) {xs : List α} (hne : xs ≠ [])
    (hopen : xs.getLast? ≠ some sep) (ys : List α) :
    (write sep cap (write sep cap s xs).1 ys).1 = (write sep cap s (xs ++ ys)).1 := by
  have hlast : (s.pending ++ xs).getLast? ≠ some sep := by
    rw [List.getLast?_append_of_ne_nil s.pending hne]
    exact hopen
  rw [write_of_not_last hlast]
  simp only [write, List.append_assoc]

/-! Data as complete lines and an unfinished one. -/

/-- One more element: it extends the unfinished line, and the separator completes it. -/
def feed (sep : α) (cut : List (List α) × List α) (x : α) : List (List α) × List α :=
  if x = sep then (cut.1 ++ [cut.2 ++ [x]], []) else (cut.1, cut.2 ++ [x])

/-- The complete lines of the data, separators included, and what is behind the last of them. -/
def cutLines (sep : α) (xs : List α) : List (List α) × List α := xs.foldl (feed sep) ([], [])

theorem foldl_feed_open {sep : α} {xs : List α} (h : sep ∉ xs) (cut : List (List α) × List α) :
    xs.foldl (feed sep) cut = (cut.1, cut.2 ++ xs) := by
  induction xs generalizing cut with
  | nil => simp
  | cons x xs ih =>
    rw [List.mem_cons, not_or] at h
    rw [List.foldl_cons, feed, if_neg (Ne.symm h.1), ih h.2, List.append_assoc,
      List.singleton_append]

/-- A piece of data that ends with the separator or has none completes at most
one line. -/
theorem foldl_feed_piece {sep : α} {xs : List α} (hne : xs ≠ []) (h : sep ∉ xs.dropLast)
    (cut : List (List α) × List α) :
    xs.foldl (feed sep) cut =
      if xs.getLast? = some sep then (cut.1 ++ [cut.2 ++ xs], []) else (cut.1, cut.2 ++ xs) := by
  obtain ⟨body, x, rfl⟩ : ∃ body x, xs = body ++ [x] :=
    ⟨xs.dropLast, xs.getLast hne, (List.dropLast_append_getLast hne).symm⟩
  rw [List.dropLast_concat] at h
  rw [List.foldl_append, foldl_feed_open h, List.foldl_cons, List.foldl_nil, feed,
    List.append_assoc, List.getLast?_concat]
  simp only [Option.some.injEq]

theorem history_step {sep : α} {cap : ℕ} {s : Store α} {data : List (List α)}
    {replies : List (Reply α)} (h : History sep cap s data replies) (d : List α) :
    History sep cap (write sep cap s d).1 (data ++ [d]) (replies ++ [(write sep cap s d).2]) := by
  obtain ⟨hsp, hq, hev, hend, hopen⟩ := h
  by_cases hlast : (s.pending ++ d).getLast? = some sep
  · rw [write_of_last hlast]
    refine ⟨?_, ?_, ?_, ?_, by simp⟩
    · simp [List.filterMap_append, ← hsp]
    · simp [List.filterMap_append, hq]
    · simp only [List.filterMap_append, hev, Machine.outputs_append, List.reduceOption_append,
        ← hq]
      congr 1
    · intro l hl
      rw [List.filterMap_append, List.mem_append] at hl
      rcases hl with hl | hl
      · exact hend l hl
      · obtain rfl : l = s.pending ++ d := by simpa using hl
        exact hlast
  · rw [write_of_not_last hlast]
    refine ⟨?_, by simpa using hq, by simpa using hev, by simpa using hend, hlast⟩
    simp [← hsp]

theorem run_history (sep : α) (cap : ℕ) (data : List (List α)) :
    History sep cap ((store sep cap).final .empty data) data
      ((store sep cap).outputs .empty data) := by
  have hg := (store sep cap).guarded_true Store.empty data
  refine hg.history (History sep cap) ⟨rfl, rfl, rfl, by simp, by simp [Store.empty]⟩ ?_
  intro s is os i h _
  exact history_step h i

end LineStore
