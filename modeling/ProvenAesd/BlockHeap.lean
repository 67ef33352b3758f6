import Mathlib

/-! An allocator that hands out numbered blocks of bytes, with the kernel's
contract for `krealloc` and `kfree`. What the contract leaves open (whether a
request is granted, whether a block grows in place, what fresh memory holds) is
an argument of each call. -/
namespace BlockHeap

inductive Ptr
  | null
  | zeroSize
  | block (id : ℕ)
  deriving DecidableEq, Repr

def Ptr.id? : Ptr → Option ℕ
  | .block i => some i
  | _ => none

@[simp] theorem Ptr.id?_eq_some {p : Ptr} {i : ℕ} : p.id? = some i ↔ p = .block i := by
  cases p <;> simp [Ptr.id?]

/-- Live blocks are disjoint objects in the kernel's half of a 64-bit address space. -/
def addressable : ℕ := 2^63

structure Heap where
  bytes : ℕ → List UInt8
  live : Finset ℕ
  next : ℕ
  retired : List ℕ
  live_lt : ∀ i ∈ live, i < next
  fits : ∑ i ∈ live, (bytes i).length < addressable

inductive AllocChoice
  | refuse
  | grant (inPlace : Bool) (junk : ℕ → UInt8)

def resize (old : List UInt8) (n : ℕ) (junk : ℕ → UInt8) : List UInt8 :=
  (List.range n).map fun i => (old[i]?).getD (junk i)

/-- Stores outside the list are dropped. -/
def overwrite (l : List UInt8) (off : ℕ) (bs : List UInt8) : List UInt8 :=
  l.take off ++ bs.take (l.length-off) ++ l.drop (off+bs.length)

@[simp] theorem resize_length (old : List UInt8) (n : ℕ) (junk : ℕ → UInt8) :
    (resize old n junk).length = n := by simp [resize]

theorem resize_take {old : List UInt8} {n k : ℕ} (hk : k ≤ n) (hold : k ≤ old.length)
    (junk : ℕ → UInt8) : (resize old n junk).take k = old.take k := by
  apply List.ext_getElem
  · simp [hk, hold]
  · intro i hi hi'
    have hik : i < k := by
      rw [List.length_take] at hi
      omega
    simp [resize, List.getElem?_eq_getElem (by omega : i < old.length)]

theorem resize_take_resize (old : List UInt8) {n k : ℕ} (hk : k ≤ n) (junk : ℕ → UInt8) :
    (resize old n junk).take k = resize old k junk := by
  rw [resize, ← List.map_take, List.take_range, min_eq_left hk]
  rfl

@[simp] theorem overwrite_length (l : List UInt8) (off : ℕ) (bs : List UInt8) :
    (overwrite l off bs).length = l.length := by
  simp only [overwrite, List.length_append, List.length_take, List.length_drop]
  omega

theorem overwrite_take (l bs : List UInt8) (off : ℕ) (h : off+bs.length ≤ l.length) :
    (overwrite l off bs).take (off+bs.length) = l.take off ++ bs := by
  rw [overwrite, List.take_of_length_le (by omega : bs.length ≤ l.length-off)]
  apply List.take_left'
  simp only [List.length_append, List.length_take]
  omega

theorem overwrite_take_off (l : List UInt8) (off : ℕ) (bs : List UInt8) :
    (overwrite l off bs).take off = l.take off := by
  by_cases h : off ≤ l.length
  · rw [overwrite, List.append_assoc]
    exact List.take_left' (by simp [h])
  · rw [overwrite, show l.length-off = 0 by omega, List.take_zero, List.append_nil,
      List.drop_eq_nil_of_le (by omega), List.append_nil, List.take_take, min_self]

namespace Heap

def empty : Heap := ⟨fun _ => [], ∅, 0, [], by simp, by simp [addressable]⟩

def contents (h : Heap) : Ptr → List UInt8
  | .block i => h.bytes i
  | _ => []

def used (h : Heap) : ℕ := ∑ i ∈ h.live, (h.bytes i).length

def kfree (h : Heap) : Ptr → Heap
  | .block i =>
    { h with
      live := h.live.erase i
      retired := h.retired ++ [i]
      live_lt := fun j hj => h.live_lt j (Finset.mem_of_mem_erase hj)
      fits := (Finset.sum_le_sum_of_subset (Finset.erase_subset i h.live)).trans_lt h.fits }
  | _ => h

/-- The block `i` gets the bytes `bs`, when they can be addressed. -/
def setBlock (h : Heap) (i : ℕ) (bs : List UInt8) : Option Heap :=
  if hf : ∑ j ∈ h.live, (Function.update h.bytes i bs j).length < addressable then
    some { h with bytes := Function.update h.bytes i bs, fits := hf }
  else none

/-- A fresh block with the bytes `bs`, when they can be addressed. -/
def newBlock (h : Heap) (bs : List UInt8) : Option Heap :=
  if hf : ∑ j ∈ insert h.next h.live, (Function.update h.bytes h.next bs j).length
      < addressable then
    some
      { h with
        bytes := Function.update h.bytes h.next bs
        live := insert h.next h.live
        next := h.next+1
        live_lt := by
          intro j hj
          rcases Finset.mem_insert.mp hj with rfl | hj
          · omega
          · have := h.live_lt j hj
            omega
        fits := hf }
  else none

/-- `krealloc(p, n, GFP_KERNEL)`: a size of zero frees `p`; a refused request
leaves `p` and its bytes alone; a granted one keeps the leading bytes of `p` and
retires its old block when it moves. -/
def krealloc (h : Heap) (p : Ptr) (n : ℕ) (choice : AllocChoice) : Heap × Ptr :=
  if n = 0 then (h.kfree p, .zeroSize) else
  match choice with
  | .refuse => (h, .null)
  | .grant inPlace junk =>
    match p, inPlace with
    -- the block keeps its number and its leading bytes
    | .block i, true =>
      match h.setBlock i (resize (h.bytes i) n junk) with
      | some h' => (h', .block i)
      | none => (h, .null)
    -- the bytes move, and the old block, if there is one, is gone
    | p, _ =>
      match h.newBlock (resize (h.contents p) n junk) with
      | some h' => (h'.kfree p, .block h.next)
      | none => (h, .null)

def store (h : Heap) (p : Ptr) (off : ℕ) (bs : List UInt8) : Heap :=
  match p with
  | .block i =>
    { h with
      bytes := Function.update h.bytes i (overwrite (h.bytes i) off bs)
      fits := by
        refine lt_of_eq_of_lt (Finset.sum_congr rfl fun j _ => ?_) h.fits
        by_cases hj : j = i
        · subst hj; simp
        · rw [Function.update_of_ne hj] }
  | _ => h

/-- The byte at `p[off]`. What lies outside the block is not the program's and is
given by `stray`. -/
def load (h : Heap) (p : Ptr) (off : ℕ) (stray : UInt8) : UInt8 :=
  ((h.contents p)[off]?).getD stray

@[simp] theorem contents_block (h : Heap) (i : ℕ) : h.contents (.block i) = h.bytes i := rfl
@[simp] theorem contents_null (h : Heap) : h.contents .null = [] := rfl
@[simp] theorem contents_zeroSize (h : Heap) : h.contents .zeroSize = [] := rfl

theorem next_not_mem (h : Heap) : h.next ∉ h.live := fun hm => (h.live_lt _ hm).false

@[simp] theorem kfree_bytes (h : Heap) (p : Ptr) : (h.kfree p).bytes = h.bytes := by
  cases p <;> rfl

@[simp] theorem kfree_contents (h : Heap) (p q : Ptr) : (h.kfree p).contents q = h.contents q := by
  cases q <;> simp [contents]

theorem mem_kfree_live {h : Heap} {p : Ptr} {i : ℕ} :
    i ∈ (h.kfree p).live ↔ i ∈ h.live ∧ p ≠ .block i := by
  cases p with
  | block j => simp [kfree, and_comm, eq_comm]
  | _ => simp [kfree]

@[simp] theorem store_live (h : Heap) (p : Ptr) (off : ℕ) (bs : List UInt8) :
    (h.store p off bs).live = h.live := by cases p <;> rfl

theorem store_bytes_of_ne (h : Heap) {p : Ptr} {i : ℕ} (hp : p ≠ .block i) (off : ℕ)
    (bs : List UInt8) : (h.store p off bs).bytes i = h.bytes i := by
  cases p with
  | block j => exact Function.update_of_ne (fun he => hp (by rw [he])) _ _
  | _ => rfl

@[simp] theorem store_bytes_self (h : Heap) (i off : ℕ) (bs : List UInt8) :
    (h.store (.block i) off bs).bytes i = overwrite (h.bytes i) off bs :=
  Function.update_self ..

/-- What a caller may rely on after `krealloc` returned the block `i` for `p`. -/
structure Regrown (h : Heap) (p : Ptr) (n : ℕ) (h' : Heap) (i : ℕ) : Prop where
  live : i ∈ h'.live
  length : (h'.bytes i).length = n
  keeps : ∀ k, k ≤ n → k ≤ (h.contents p).length → (h'.bytes i).take k = (h.contents p).take k
  source : p = .block i ∨ i ∉ h.live
  others : ∀ j ∈ h.live, p ≠ .block j → j ≠ i ∧ j ∈ h'.live ∧ h'.bytes j = h.bytes j

theorem krealloc_zero (h : Heap) (p : Ptr) (choice : AllocChoice) :
    h.krealloc p 0 choice = (h.kfree p, .zeroSize) := if_pos rfl

theorem setBlock_regrown {h h' : Heap} {i n : ℕ} {junk : ℕ → UInt8} (hi : i ∈ h.live)
    (hs : h.setBlock i (resize (h.bytes i) n junk) = some h') : Regrown h (.block i) n h' i := by
  unfold setBlock at hs
  split at hs
  · cases hs
    refine ⟨hi, by simp, fun k hk hold => ?_, Or.inl rfl, fun j hj hp => ?_⟩
    · simp only [Function.update_self, contents_block] at hold ⊢
      exact resize_take hk hold junk
    · have hji : j ≠ i := fun he => hp (by rw [he])
      exact ⟨hji, hj, Function.update_of_ne hji _ _⟩
  · cases hs

theorem newBlock_regrown {h h' : Heap} {p : Ptr} {n : ℕ} {junk : ℕ → UInt8}
    (hp : ∀ i, p = .block i → i ∈ h.live)
    (hs : h.newBlock (resize (h.contents p) n junk) = some h') :
    Regrown h p n (h'.kfree p) h.next := by
  unfold newBlock at hs
  split at hs
  · cases hs
    refine ⟨?_, by simp, fun k hk hold => ?_, Or.inr h.next_not_mem, fun j hj hpj => ?_⟩
    · exact mem_kfree_live.mpr ⟨Finset.mem_insert_self _ _, fun he => h.next_not_mem (hp _ he)⟩
    · simpa using resize_take hk hold junk
    · have hjn : j ≠ h.next := fun he => h.next_not_mem (he ▸ hj)
      exact ⟨hjn, mem_kfree_live.mpr ⟨Finset.mem_insert_of_mem hj, hpj⟩, by simp [hjn]⟩
  · cases hs

/-- The three ways a request for at least one byte can go: it is refused, the block
gets its new bytes in place, or a fresh block gets them and the old one is freed. -/
theorem krealloc_cases (h : Heap) (p : Ptr) {n : ℕ} (hn : 0 < n) (choice : AllocChoice) :
    h.krealloc p n choice = (h, .null) ∨
    (∃ i h' junk, p = .block i ∧ h.setBlock i (resize (h.bytes i) n junk) = some h' ∧
      h.krealloc p n choice = (h', .block i)) ∨
    ∃ h' junk, h.newBlock (resize (h.contents p) n junk) = some h' ∧
      h.krealloc p n choice = (h'.kfree p, .block h.next) := by
  have hmove (junk : ℕ → UInt8) (hdef : h.krealloc p n choice =
      match h.newBlock (resize (h.contents p) n junk) with
        | some h' => (h'.kfree p, Ptr.block h.next)
        | none => (h, .null)) :
      h.krealloc p n choice = (h, .null) ∨
      (∃ i h' junk, p = .block i ∧ h.setBlock i (resize (h.bytes i) n junk) = some h' ∧
        h.krealloc p n choice = (h', .block i)) ∨
      ∃ h' junk, h.newBlock (resize (h.contents p) n junk) = some h' ∧
        h.krealloc p n choice = (h'.kfree p, .block h.next) := by
    cases hs : h.newBlock (resize (h.contents p) n junk) with
    | none => exact Or.inl (by rw [hdef, hs])
    | some h' => exact Or.inr (Or.inr ⟨h', junk, hs, by rw [hdef, hs]⟩)
  -- the cases are those of the definition, and all but one of them move
  match choice, p with
  | .refuse, _ => exact Or.inl (if_neg hn.ne')
  | .grant true junk, .block i =>
    cases hs : h.setBlock i (resize (h.bytes i) n junk) with
    | none => exact Or.inl (by simp only [krealloc, if_neg hn.ne', hs])
    | some h' =>
      exact Or.inr (Or.inl ⟨i, h', junk, rfl, hs, by simp only [krealloc, if_neg hn.ne', hs]⟩)
  | .grant false junk, .block i => exact hmove junk (if_neg hn.ne')
  | .grant _ junk, .null => exact hmove junk (if_neg hn.ne')
  | .grant _ junk, .zeroSize => exact hmove junk (if_neg hn.ne')

/-- The two outcomes of a request for at least one byte. -/
theorem krealloc_spec {h : Heap} {p : Ptr} {n : ℕ} (hn : 0 < n)
    (hp : ∀ i, p = .block i → i ∈ h.live) (choice : AllocChoice) :
    h.krealloc p n choice = (h, .null) ∨
      ∃ h' i, h.krealloc p n choice = (h', .block i) ∧ Regrown h p n h' i := by
  rcases krealloc_cases h p hn choice with hr | ⟨i, h', junk, rfl, hs, hr⟩ | ⟨h', junk, hs, hr⟩
  · exact Or.inl hr
  · exact Or.inr ⟨h', i, hr, setBlock_regrown (hp i rfl) hs⟩
  · exact Or.inr ⟨h'.kfree p, h.next, hr, newBlock_regrown hp hs⟩

/-! The books of the allocator: every number handed out is live or retired, and
none is retired twice. -/

structure Ledger (h : Heap) : Prop where
  once : h.retired.Nodup
  accounted : ∀ i, i ∈ h.retired ↔ i < h.next ∧ i ∉ h.live

theorem ledger_empty : Ledger empty := ⟨List.nodup_nil, fun i => by simp [empty]⟩

theorem Ledger.not_retired {h : Heap} (hl : Ledger h) {i : ℕ} (hi : i ∈ h.live) :
    i ∉ h.retired := fun hr => ((hl.accounted i).mp hr).2 hi

/-- Freeing a block that is live, or nothing, keeps the books. -/
theorem Ledger.kfree {h : Heap} (hl : Ledger h) {p : Ptr} (hp : ∀ i, p = .block i → i ∈ h.live) :
    Ledger (h.kfree p) := by
  cases p with
  | null | zeroSize => exact hl
  | block i =>
    have hi := hp i rfl
    constructor
    · apply List.nodup_append.mpr
      refine ⟨hl.once, List.nodup_singleton i, ?_⟩
      intro j hj k hk hjk
      rw [List.mem_singleton.mp hk] at hjk
      exact hl.not_retired hi (hjk ▸ hj)
    · intro j
      have hlt := h.live_lt i hi
      change j ∈ h.retired ++ [i] ↔ j < h.next ∧ j ∉ h.live.erase i
      rw [List.mem_append, hl.accounted, List.mem_singleton, Finset.mem_erase]
      by_cases hj : j = i
      · simp [hj, hlt]
      · simp [hj]

theorem setBlock_frame {h h' : Heap} {i : ℕ} {bs : List UInt8} (hs : h.setBlock i bs = some h') :
    h'.live = h.live ∧ h'.next = h.next ∧ h'.retired = h.retired := by
  unfold setBlock at hs
  split at hs
  · cases hs
    exact ⟨rfl, rfl, rfl⟩
  · cases hs

theorem newBlock_frame {h h' : Heap} {bs : List UInt8} (hs : h.newBlock bs = some h') :
    h'.live = insert h.next h.live ∧ h'.next = h.next+1 ∧ h'.retired = h.retired := by
  unfold newBlock at hs
  split at hs
  · cases hs
    exact ⟨rfl, rfl, rfl⟩
  · cases hs

theorem Ledger.of_frame {h h' : Heap} (hl : Ledger h)
    (hf : h'.live = h.live ∧ h'.next = h.next ∧ h'.retired = h.retired) : Ledger h' := by
  obtain ⟨hlive, hnext, hretired⟩ := hf
  constructor
  · rw [hretired]
    exact hl.once
  · intro i
    rw [hretired, hnext, hlive]
    exact hl.accounted i

theorem Ledger.newBlock {h h' : Heap} (hl : Ledger h) {bs : List UInt8}
    (hs : h.newBlock bs = some h') : Ledger h' := by
  obtain ⟨hlive, hnext, hretired⟩ := newBlock_frame hs
  constructor
  · rw [hretired]
    exact hl.once
  · intro i
    rw [hretired, hnext, hlive, hl.accounted, Finset.mem_insert]
    constructor
    · rintro ⟨hlt, hnot⟩
      refine ⟨by omega, ?_⟩
      rintro (heq | hin)
      · omega
      · exact hnot hin
    · rintro ⟨hlt, hnot⟩
      rw [not_or] at hnot
      exact ⟨by omega, hnot.2⟩

theorem Ledger.store {h : Heap} (hl : Ledger h) (p : Ptr) (off : ℕ) (bs : List UInt8) :
    Ledger (h.store p off bs) := by
  apply hl.of_frame
  cases p <;> exact ⟨rfl, rfl, rfl⟩

/-- What a request for at least one byte leaves live: the block returned and
every other one there was. -/
theorem krealloc_live {h h' : Heap} {p : Ptr} {n i : ℕ} {choice : AllocChoice} (hn : 0 < n)
    (hr : h.krealloc p n choice = (h', .block i)) (hp : ∀ i, p = .block i → i ∈ h.live) (j : ℕ) :
    j ∈ h'.live ↔ j = i ∨ (j ∈ h.live ∧ p ≠ .block j) := by
  rcases krealloc_cases h p hn choice with hc | ⟨k, h₁, junk, rfl, hs, hc⟩ | ⟨h₁, junk, hs, hc⟩ <;>
    rw [hr] at hc <;> obtain ⟨hh, hi⟩ := Prod.mk.inj hc
  · cases hi
  · obtain rfl := Ptr.block.inj hi
    rw [hh, (setBlock_frame hs).1]
    by_cases hj : j = i
    · simp [hj, hp i rfl]
    · simp [hj, Ne.symm hj]
  · obtain rfl := Ptr.block.inj hi
    rw [hh, mem_kfree_live, (newBlock_frame hs).1, Finset.mem_insert]
    -- the fresh block is not the one that is freed
    have hfresh : p ≠ .block h.next := fun he => h.next_not_mem (hp _ he)
    by_cases hj : j = h.next
    · simp [hj, hfresh]
    · simp [hj]

theorem Ledger.krealloc {h : Heap} (hl : Ledger h) {p : Ptr} {n : ℕ} (hn : 0 < n)
    (hp : ∀ i, p = .block i → i ∈ h.live) (choice : AllocChoice) :
    Ledger (h.krealloc p n choice).1 := by
  rcases krealloc_cases h p hn choice with hc | ⟨k, h', junk, -, hs, hc⟩ | ⟨h', junk, hs, hc⟩ <;>
    rw [hc]
  · exact hl
  · exact hl.of_frame (setBlock_frame hs)
  · apply (hl.newBlock hs).kfree
    intro i hi
    rw [(newBlock_frame hs).1]
    exact Finset.mem_insert_of_mem (hp i hi)

def kfreeAll (h : Heap) (ps : List Ptr) : Heap := ps.foldl kfree h

theorem mem_kfreeAll_live {h : Heap} {ps : List Ptr} {i : ℕ} :
    i ∈ (h.kfreeAll ps).live ↔ i ∈ h.live ∧ i ∉ ps.filterMap Ptr.id? := by
  induction ps generalizing h with
  | nil => simp [kfreeAll]
  | cons p ps ih =>
    change i ∈ ((h.kfree p).kfreeAll ps).live ↔ _
    rw [ih, mem_kfree_live]
    simp only [List.mem_filterMap, List.mem_cons, Ptr.id?_eq_some]
    grind

@[simp] theorem kfreeAll_next (h : Heap) (ps : List Ptr) : (h.kfreeAll ps).next = h.next := by
  induction ps generalizing h with
  | nil => rfl
  | cons p ps ih =>
    change ((h.kfree p).kfreeAll ps).next = h.next
    rw [ih]
    cases p <;> rfl

/-- Freeing different live blocks one after the other keeps the books. -/
theorem Ledger.kfreeAll {h : Heap} (hl : Ledger h) {ps : List Ptr}
    (hnodup : (ps.filterMap Ptr.id?).Nodup) (hlive : ∀ i ∈ ps.filterMap Ptr.id?, i ∈ h.live) :
    Ledger (h.kfreeAll ps) := by
  induction ps generalizing h with
  | nil => exact hl
  | cons p ps ih =>
    have hmem (i : ℕ) : i ∈ (p :: ps).filterMap Ptr.id? ↔
        .block i = p ∨ i ∈ ps.filterMap Ptr.id? := by
      simp
    apply ih (hl.kfree fun i hi => hlive i ((hmem i).mpr (Or.inl hi.symm)))
    · exact List.Nodup.sublist ((List.sublist_cons_self p ps).filterMap _) hnodup
    · intro i hi
      apply mem_kfree_live.mpr
      refine ⟨hlive i ((hmem i).mpr (Or.inr hi)), ?_⟩
      -- the first block does not come up again
      rintro rfl
      exact (List.nodup_cons.mp hnodup).1 hi

/-! Requests that are granted because there is room for them. -/

theorem sum_update_erase (h : Heap) (s : Finset ℕ) (i : ℕ) (bs : List UInt8) :
    ∑ j ∈ s.erase i, (Function.update h.bytes i bs j).length =
      ∑ j ∈ s.erase i, (h.bytes j).length := by
  apply Finset.sum_congr rfl
  intro j hj
  rw [Function.update_of_ne (Finset.ne_of_mem_erase hj)]

theorem setBlock_of_room {h : Heap} {i : ℕ} (bs : List UInt8) (hi : i ∈ h.live)
    (hroom : (h.kfree (.block i)).used+bs.length < addressable) :
    ∃ h', h.setBlock i bs = some h' ∧ h'.bytes i = bs ∧
      (h'.kfree (.block i)).used = (h.kfree (.block i)).used := by
  have hsum : ∑ j ∈ h.live, (Function.update h.bytes i bs j).length < addressable := by
    calc
      ∑ j ∈ h.live, (Function.update h.bytes i bs j).length =
          ∑ j ∈ h.live.erase i, (Function.update h.bytes i bs j).length+bs.length := by
        rw [← Finset.sum_erase_add h.live _ hi, Function.update_self]
      _ = (h.kfree (.block i)).used+bs.length := by
        rw [sum_update_erase]
        rfl
      _ < addressable := hroom
  refine ⟨_, dif_pos hsum, Function.update_self .., ?_⟩
  exact sum_update_erase h h.live i bs

theorem newBlock_of_room {h : Heap} (bs : List UInt8) (hroom : h.used+bs.length < addressable) :
    ∃ h', h.newBlock bs = some h' ∧ h'.bytes h.next = bs ∧
      (h'.kfree (.block h.next)).used = h.used := by
  have hrest : ∑ j ∈ (insert h.next h.live).erase h.next,
      (Function.update h.bytes h.next bs j).length = h.used := by
    rw [sum_update_erase, Finset.erase_insert h.next_not_mem]
    rfl
  have hsum : ∑ j ∈ insert h.next h.live, (Function.update h.bytes h.next bs j).length <
      addressable := by
    rw [← Finset.sum_erase_add _ _ (Finset.mem_insert_self h.next h.live), hrest,
      Function.update_self]
    exact hroom
  exact ⟨_, dif_pos hsum, Function.update_self .., hrest⟩

/-- A request that fits beside the other blocks can be granted, and then leaves
the same room beside the new block. -/
theorem krealloc_of_room {h : Heap} {p : Ptr} {n : ℕ} (hn : 0 < n)
    (hp : ∀ i, p = .block i → i ∈ h.live) (hroom : (h.kfree p).used+n < addressable)
    (junk : ℕ → UInt8) :
    ∃ h' i, h.krealloc p n (.grant true junk) = (h', .block i) ∧
      h'.bytes i = resize (h.contents p) n junk ∧
      (h'.kfree (.block i)).used = (h.kfree p).used := by
  cases p with
  | block i =>
    obtain ⟨h', hset, hbytes, hused⟩ :=
      setBlock_of_room (resize (h.bytes i) n junk) (hp i rfl) (by rwa [resize_length])
    refine ⟨h', i, ?_, hbytes, hused⟩
    unfold krealloc
    rw [if_neg hn.ne']
    simp only [hset]
  | null | zeroSize =>
    -- there is no old block, and the request gets a fresh one
    have hroom' : h.used+(resize [] n junk).length < addressable := by
      rw [resize_length]
      exact hroom
    obtain ⟨h', hnew, hbytes, hused⟩ := newBlock_of_room (resize [] n junk) hroom'
    refine ⟨h', h.next, ?_, hbytes, hused⟩
    unfold krealloc
    rw [if_neg hn.ne']
    simp only [contents, hnew, kfree]

theorem store_kfree_used (h : Heap) (p q : Ptr) (off : ℕ) (bs : List UInt8) :
    ((h.store p off bs).kfree q).used = (h.kfree q).used := by
  have hlive : ((h.store p off bs).kfree q).live = (h.kfree q).live := by
    cases q <;> simp [kfree]
  unfold used
  rw [hlive]
  apply Finset.sum_congr rfl
  intro j _
  rw [kfree_bytes, kfree_bytes]
  -- what is stored changes the bytes of one block, and the length of none
  cases p with
  | block i =>
    by_cases hj : j = i
    · rw [hj, store_bytes_self, overwrite_length]
    · rw [store_bytes_of_ne h (fun he => hj (Ptr.block.inj he).symm)]
  | null | zeroSize => rfl

end Heap

end BlockHeap
