import Mathlib

/-! A file that is written at the offset of a descriptor, and what is left of it
when it is truncated under that descriptor. -/
namespace SeekableFile

variable {α : Type*} [Zero α]

/-- A write at an offset; a hole before it reads as zeros. -/
def writeAt (file : List α) (offset : ℕ) : (bytes : List α) → List α
  | [] => file
  | b :: bytes =>
    file.take offset ++ List.replicate (offset-file.length) 0 ++
      b :: bytes ++ file.drop (offset+(b :: bytes).length)

/-- The content when the file was truncated at offset `hole` and `late` was written
from there on. -/
def sparse (hole : ℕ) : (late : List α) → List α
  | [] => []
  | b :: late => List.replicate hole 0 ++ b :: late

theorem sparse_of_ne_nil (hole : ℕ) {late : List α} (h : late ≠ []) :
    sparse hole late = List.replicate hole 0 ++ late := by
  obtain ⟨b, rest, rfl⟩ := List.exists_cons_of_ne_nil h
  rfl

@[simp] theorem sparse_zero (late : List α) : sparse 0 late = late := by
  cases late <;> rfl

/-- Writing on after the truncation only appends. -/
theorem writeAt_sparse (hole : ℕ) (late bytes : List α) :
    writeAt (sparse hole late) (hole+late.length) bytes = sparse hole (late ++ bytes) := by
  cases bytes with
  | nil => rw [List.append_nil, writeAt]
  | cons b bytes =>
    have hne : late ++ b :: bytes ≠ [] := by simp
    rw [sparse_of_ne_nil hole hne, writeAt]
    cases late with
    | nil => simp [sparse]
    | cons c late =>
      have hlen : (sparse hole (c :: late)).length = hole+(c :: late).length := by simp [sparse]
      rw [List.take_of_length_le hlen.le, List.drop_eq_nil_of_le (by omega), hlen, Nat.sub_self,
        sparse_of_ne_nil hole (List.cons_ne_nil c late)]
      simp

/-- A file that is written from its start on. -/
theorem writeAt_length (file bytes : List α) : writeAt file file.length bytes = file ++ bytes := by
  have h := writeAt_sparse 0 file bytes
  simpa using h

/-- What was written before the truncation survives if it was nothing, or zeros
that a later write restores. -/
theorem sparse_eq_append_iff (early late : List α) :
    sparse early.length late = early ++ late ↔
      early = [] ∨ (late ≠ [] ∧ ∀ b ∈ early, b = 0) := by
  constructor
  · intro h
    by_cases hlate : late = []
    · rw [hlate, sparse, List.append_nil] at h
      exact Or.inl h.symm
    · rw [sparse_of_ne_nil _ hlate] at h
      have hzeros := List.append_cancel_right h
      refine Or.inr ⟨hlate, fun b hb => ?_⟩
      rw [← hzeros] at hb
      exact List.eq_of_mem_replicate hb
  · rintro (rfl | ⟨hlate, hzeros⟩)
    · exact sparse_zero late
    · rw [sparse_of_ne_nil _ hlate, List.eq_replicate_of_mem hzeros, List.length_replicate]

end SeekableFile
