import Mathlib

/-! Offsets into the concatenation of a list of pieces: which piece holds an
offset, and reading the concatenation piece by piece. -/
namespace ConcatOffset

variable {α : Type*}

/-- The piece that holds offset `p` and the offset within it, given the sizes. -/
def locate : List ℕ → ℕ → Option (ℕ × ℕ)
  | [], _ => none
  | n :: ns, p => if p < n then some (0, p) else (locate ns (p-n)).map fun io => (io.1+1, io.2)

/-- At most `n` elements from offset `p` on, without crossing into the next piece. -/
def pieceAt (xs : List (List α)) (p n : ℕ) : List α :=
  match locate (xs.map List.length) p with
  | none => []
  | some (i, o) => ((xs[i]?.getD []).drop o).take n

theorem locate_eq_none {ns : List ℕ} {p : ℕ} : locate ns p = none ↔ ns.sum ≤ p := by
  induction ns generalizing p with
  | nil => simp [locate]
  | cons n ns ih =>
    by_cases hp : p < n
    · simp only [locate, if_pos hp, List.sum_cons, reduceCtorEq, false_iff]
      omega
    · simp only [locate, if_neg hp, Option.map_eq_none_iff, ih, List.sum_cons]
      omega

theorem locate_eq_some {ns : List ℕ} {p i o : ℕ} :
    locate ns p = some (i, o) ↔ ∃ h : i < ns.length, o < ns[i] ∧ p = (ns.take i).sum+o := by
  induction ns generalizing p i with
  | nil => simp [locate]
  | cons n ns ih =>
    by_cases hp : p < n
    · simp only [locate, if_pos hp, Option.some.injEq, Prod.mk.injEq]
      cases i with
      | zero => simp; omega
      | succ i => simp; omega
    · -- behind the first piece the search goes on with the rest of the offset
      simp only [locate, if_neg hp, Option.map_eq_some_iff, Prod.exists, Prod.mk.injEq]
      cases i with
      | zero => simp; omega
      | succ i =>
        constructor
        · rintro ⟨j, o', hl, hj, rfl⟩
          obtain rfl : j = i := by omega
          obtain ⟨hlt, ho, he⟩ := ih.mp hl
          refine ⟨by simpa using hlt, by simpa using ho, ?_⟩
          simp only [List.take_succ_cons, List.sum_cons]
          omega
        · rintro ⟨hlt, ho, he⟩
          simp only [List.take_succ_cons, List.sum_cons] at he
          refine ⟨i, o, ih.mpr ⟨by simpa using hlt, by simpa using ho, by omega⟩, rfl, rfl⟩

theorem drop_flatten (xs : List (List α)) {i o : ℕ} (hi : i < xs.length)
    (ho : o ≤ xs[i].length) :
    xs.flatten.drop (((xs.map List.length).take i).sum+o) =
      xs[i].drop o ++ (xs.drop (i+1)).flatten := by
  rw [← List.drop_drop, List.drop_sum_flatten, List.drop_eq_getElem_cons hi, List.flatten_cons,
    List.drop_append_of_le_length ho]

/-- A place in one of the parts lies in the whole. -/
theorem place_le_flatten {xss : List (List α)} {i : ℕ} {xs : List α} (h : xss[i]? = some xs) {o : ℕ}
    (ho : o ≤ xs.length) : (xss.take i).flatten.length+o ≤ xss.flatten.length := by
  obtain ⟨hi, rfl⟩ := List.getElem?_eq_some_iff.mp h
  have hsplit : xss.flatten = (xss.take i).flatten ++ (xss[i] ++ (xss.drop (i+1)).flatten) := by
    rw [← List.flatten_cons, ← List.drop_eq_getElem_cons hi, ← List.flatten_append,
      List.take_append_drop]
  rw [hsplit, List.length_append, List.length_append]
  omega

theorem pieceAt_of_le {xs : List (List α)} {p : ℕ} (h : xs.flatten.length ≤ p) (n : ℕ) :
    pieceAt xs p n = [] := by
  rw [List.length_flatten] at h
  simp [pieceAt, locate_eq_none.mpr h]

/-- Inside the concatenation a piece read is a non-empty prefix of the rest. -/
theorem pieceAt_of_lt {xs : List (List α)} {p : ℕ} (h : p < xs.flatten.length) (n : ℕ) :
    ∃ rest : List α, rest ≠ [] ∧ pieceAt xs p n = rest.take n ∧ rest <+: xs.flatten.drop p := by
  rw [List.length_flatten] at h
  cases hl : locate (xs.map List.length) p with
  | none =>
    have := locate_eq_none.mp hl
    omega
  | some io =>
    obtain ⟨i, o⟩ := io
    obtain ⟨hi, ho, rfl⟩ := locate_eq_some.mp hl
    have hi' : i < xs.length := by simpa using hi
    rw [List.getElem_map] at ho
    refine ⟨xs[i].drop o, ?_, ?_, ?_⟩
    · rw [← List.length_pos_iff, List.length_drop]
      omega
    · simp [pieceAt, hl, hi']
    · rw [drop_flatten xs hi' (Nat.le_of_lt ho)]
      exact List.prefix_append _ _

/-- Reading from offset `o` of piece `i`. -/
theorem pieceAt_of_sum (xs : List (List α)) {i o : ℕ} (hi : i < xs.length) (ho : o < xs[i].length)
    (n : ℕ) : pieceAt xs (((xs.map List.length).take i).sum+o) n = (xs[i].drop o).take n := by
  have hi' : i < (xs.map List.length).length := by simpa using hi
  have hl : locate (xs.map List.length) (((xs.map List.length).take i).sum+o) = some (i, o) :=
    locate_eq_some.mpr ⟨hi', by simpa using ho, rfl⟩
  simp [pieceAt, hl, hi]

theorem pieceAt_length_le (xs : List (List α)) (p n : ℕ) : (pieceAt xs p n).length ≤ n := by
  unfold pieceAt
  split
  · exact Nat.zero_le n
  · exact List.length_take_le ..

theorem pieceAt_segment (xs : List (List α)) (p n : ℕ) : pieceAt xs p n <+: xs.flatten.drop p := by
  by_cases h : p < xs.flatten.length
  · obtain ⟨rest, -, he, hp⟩ := pieceAt_of_lt h n
    rw [he]
    exact (List.take_prefix n rest).trans hp
  · rw [pieceAt_of_le (by omega)]
    exact List.nil_prefix

theorem pieceAt_length_pos {xs : List (List α)} {p n : ℕ} (h : p < xs.flatten.length)
    (hn : 0 < n) : 0 < (pieceAt xs p n).length := by
  obtain ⟨rest, hne, he, -⟩ := pieceAt_of_lt h n
  rw [he, List.length_take]
  have := List.length_pos_iff.mpr hne
  omega

/-- The pieces, of at most `n` elements each, that reads one after the other deliver
from offset `p` on. -/
def piecesFrom (xs : List (List α)) (n : ℕ) : (fuel p : ℕ) → List (List α)
  | 0, _ => []
  | fuel+1, p =>
    if p < xs.flatten.length then
      pieceAt xs p n :: piecesFrom xs n fuel (p+(pieceAt xs p n).length)
    else []

/-- With enough fuel nothing of the concatenation is left out. -/
theorem piecesFrom_flatten (xs : List (List α)) {n : ℕ} (hn : 0 < n) {fuel p : ℕ}
    (hfuel : xs.flatten.length-p ≤ fuel) :
    (piecesFrom xs n fuel p).flatten = xs.flatten.drop p := by
  induction fuel generalizing p with
  | zero =>
    symm
    apply List.drop_eq_nil_of_le
    omega
  | succ fuel ih =>
    unfold piecesFrom
    split
    · rename_i hp
      have hpos := pieceAt_length_pos hp hn
      rw [List.flatten_cons, ih (by omega), ← List.drop_drop]
      exact List.prefix_iff_eq_append.mp (pieceAt_segment xs p n)
    · symm
      apply List.drop_eq_nil_of_le
      omega

/-- A segment and the segment behind it make one segment. -/
theorem append_prefix_of_drop {xs ys zs : List α} (hx : xs <+: zs)
    (hy : ys <+: zs.drop xs.length) : xs ++ ys <+: zs := by
  obtain ⟨tail, rfl⟩ := hx
  rw [List.drop_left] at hy
  exact (List.prefix_append_right_inj xs).mpr hy

end ConcatOffset
