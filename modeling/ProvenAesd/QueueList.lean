import ProvenAesd.MealyRuns
import ProvenAesd.SinglyLinked

/-! The `SLIST` macros of `queue.h` on memory: over any run of them the lists are what
the same changes make of plain lists. -/
namespace ProvenAesd.Server
open Mealy SinglyLinked

/-- `slh_first` of every head and `sle_next` of every element; NULL is `none`. -/
structure SListMem (H α : Type*) where
  slhFirst : H → Option α
  sleNext : α → Option α

section Macros

variable {H α : Type*} [DecidableEq H] [DecidableEq α] (m : SListMem H α)

def slistInit (head : H) : SListMem H α := { m with slhFirst := Function.update m.slhFirst head none }

def slistInsertHead (head : H) (elm : α) : SListMem H α :=
  let m := { m with sleNext := Function.update m.sleNext elm (m.slhFirst head) }
  { m with slhFirst := Function.update m.slhFirst head (some elm) }

def slistInsertAfter (slistelm elm : α) : SListMem H α :=
  let m := { m with sleNext := Function.update m.sleNext elm (m.sleNext slistelm) }
  { m with sleNext := Function.update m.sleNext slistelm (some elm) }

/-- `none` when NULL is followed. -/
def slistRemoveHead (head : H) : Option (SListMem H α) :=
  (m.slhFirst head).map fun first =>
    { m with slhFirst := Function.update m.slhFirst head (m.sleNext first) }

def slistRemoveAfter (slistelm : α) : Option (SListMem H α) :=
  (m.sleNext slistelm).map fun elm =>
    { m with sleNext := Function.update m.sleNext slistelm (m.sleNext elm) }

/-- The loop of `SLIST_REMOVE` for the element before `elm`: `none` when `fuel` turns did
not end it, `some none` when it follows NULL. -/
def removeLoop (elm : α) : (fuel : ℕ) → Option α → Option (Option α)
  | 0, _ => none
  | _+1, none => some none
  | fuel+1, some curelm =>
    if m.sleNext curelm = some elm then some (some curelm)
    else removeLoop elm fuel (m.sleNext curelm)

def slistRemove (fuel : ℕ) (head : H) (elm : α) : Option (Option (SListMem H α)) :=
  if m.slhFirst head = some elm then some (slistRemoveHead m head)
  else
    (removeLoop m elm fuel (m.slhFirst head)).map fun curelm =>
      curelm.bind fun curelm => slistRemoveAfter m curelm

def slistSwap (head1 head2 : H) : SListMem H α :=
  let swapFirst := m.slhFirst head1
  let m := { m with slhFirst := Function.update m.slhFirst head1 (m.slhFirst head2) }
  { m with slhFirst := Function.update m.slhFirst head2 swapFirst }

def slistEmpty (head : H) : Bool := m.slhFirst head == none

/-- The elements a `SLIST_FOREACH` visits; `none` when `fuel` turns did not end it. -/
def slistForeach : (fuel : ℕ) → Option α → Option (List α)
  | _, none => some []
  | 0, some _ => none
  | fuel+1, some var => (slistForeach fuel (m.sleNext var)).map (var :: ·)

end Macros

inductive SListCall (H α : Type*)
  | init (head : H)
  | insertHead (head : H) (elm : α)
  | insertAfter (slistelm elm : α)
  | removeHead (head : H)
  | removeAfter (slistelm : α)
  | remove (head : H) (elm : α) (fuel : ℕ)
  | swap (head1 head2 : H)
  | empty (head : H)
  | first (head : H)
  | foreach (head : H) (fuel : ℕ)

inductive SListReply (α : Type*)
  | done
  | fault
  | running
  | isEmpty (b : Bool)
  | found (elm : Option α)
  | visited (elms : List α)
  deriving DecidableEq

section Machines

variable {H α : Type*} [DecidableEq H] [DecidableEq α]

def SListMem.changed (m : SListMem H α) : Option (Option (SListMem H α)) → SListMem H α × SListReply α
  | none => (m, .running)
  | some none => (m, .fault)
  | some (some m') => (m', .done)

def slist : Machine (SListMem H α) (SListCall H α) (SListReply α) where
  step m
    | .init head => (slistInit m head, .done)
    | .insertHead head elm => (slistInsertHead m head elm, .done)
    | .insertAfter slistelm elm => (slistInsertAfter m slistelm elm, .done)
    | .removeHead head => m.changed (some (slistRemoveHead m head))
    | .removeAfter slistelm => m.changed (some (slistRemoveAfter m slistelm))
    | .remove head elm fuel => m.changed (slistRemove m fuel head elm)
    | .swap head1 head2 => (slistSwap m head1 head2, .done)
    | .empty head => (m, .isEmpty (slistEmpty m head))
    | .first head => (m, .found (m.slhFirst head))
    | .foreach head fuel =>
      (m, match slistForeach m fuel (m.slhFirst head) with
        | none => .running
        | some elms => .visited elms)

/-- The calls on plain lists, one for each head. -/
def plainLists : Machine (H → List α) (SListCall H α) (SListReply α) where
  step lists
    | .init head => (Function.update lists head [], .done)
    | .insertHead head elm => (Function.update lists head (elm :: lists head), .done)
    | .insertAfter slistelm elm => (fun head => insertAfter slistelm elm (lists head), .done)
    | .removeHead head => (Function.update lists head (lists head).tail, .done)
    | .removeAfter slistelm => (fun head => removeAfter slistelm (lists head), .done)
    | .remove head elm _ => (Function.update lists head ((lists head).erase elm), .done)
    | .swap head1 head2 =>
      (Function.update (Function.update lists head1 (lists head2)) head2 (lists head1), .done)
    | .empty head => (lists, .isEmpty (lists head).isEmpty)
    | .first head => (lists, .found (lists head).head?)
    | .foreach head _ => (lists, .visited (lists head))

/-- What the macros ask of the lists they are used on. -/
def Fits (lists : H → List α) : SListCall H α → Prop
  | .init _ | .swap _ _ | .empty _ | .first _ => True
  | .insertHead _ elm => ∀ head, elm ∉ lists head
  | .insertAfter slistelm elm => (∃ head, slistelm ∈ lists head) ∧ ∀ head, elm ∉ lists head
  | .removeHead head => lists head ≠ []
  | .removeAfter slistelm => ∃ head, slistelm ∈ (lists head).dropLast
  | .remove head elm fuel => elm ∈ lists head ∧ (lists head).length ≤ fuel
  | .foreach head fuel => (lists head).length ≤ fuel

instance [Fintype H] (lists : H → List α) (call : SListCall H α) : Decidable (Fits lists call) :=
  match call with
  | .init _ | .swap _ _ | .empty _ | .first _ => inferInstanceAs (Decidable True)
  | .insertHead _ elm => inferInstanceAs (Decidable (∀ head, elm ∉ lists head))
  | .insertAfter slistelm elm =>
    inferInstanceAs (Decidable ((∃ head, slistelm ∈ lists head) ∧ ∀ head, elm ∉ lists head))
  | .removeHead head => inferInstanceAs (Decidable (lists head ≠ []))
  | .removeAfter slistelm => inferInstanceAs (Decidable (∃ head, slistelm ∈ (lists head).dropLast))
  | .remove head elm fuel =>
    inferInstanceAs (Decidable (elm ∈ lists head ∧ (lists head).length ≤ fuel))
  | .foreach head fuel => inferInstanceAs (Decidable ((lists head).length ≤ fuel))

/-- The heads lead through the lists, and no element is in two of them. -/
structure Represents (lists : H → List α) (m : SListMem H α) : Prop where
  linked : ∀ head, Linked m.sleNext (m.slhFirst head) (lists head)
  apart : ∀ head head' elm, elm ∈ lists head → elm ∈ lists head' → head = head'

namespace Represents

variable {lists lists' : H → List α} {m : SListMem H α} {head : H} {elm : α} {q : Option α}
  {pre old new : List α}

omit [DecidableEq α] in
/-- A head that is made to lead through some of its elements. -/
theorem setHead (h : Represents lists m) (hq : Linked m.sleNext q new)
    (hsub : ∀ x ∈ new, x ∈ lists head) :
    Represents (Function.update lists head new)
      { m with slhFirst := Function.update m.slhFirst head q } := by
  have hmem (head' : H) (x : α) (hx : x ∈ Function.update lists head new head') :
      x ∈ lists head' := by
    by_cases hhead : head' = head
    · subst hhead
      rw [Function.update_self] at hx
      exact hsub x hx
    · rwa [Function.update_of_ne hhead] at hx
  constructor
  · intro head'
    by_cases hhead : head' = head
    · subst hhead
      simp only [Function.update_self]
      exact hq
    · simp only [Function.update_of_ne hhead]
      exact h.linked head'
  · intro a b x ha hb
    exact h.apart a b x (hmem a x ha) (hmem b x hb)

omit [DecidableEq H] in
/-- A link stored in an element of no list. -/
theorem storeFree (h : Represents lists m) (hfree : ∀ head, elm ∉ lists head) (q : Option α) :
    Represents lists { m with sleNext := Function.update m.sleNext elm q } :=
  ⟨fun head => (h.linked head).update_of_not_mem (hfree head) q, h.apart⟩

/-- A link stored in an element of a list. -/
theorem redirect (h : Represents lists m) (hold : lists head = pre ++ elm :: old)
    (hq : Linked m.sleNext q new) (hnot : elm ∉ new)
    (hnew : ∀ x ∈ new, ∀ head', x ∈ lists head' → head' = head)
    (hlist : lists' head = pre ++ elm :: new) (hlists : ∀ head' ≠ head, lists' head' = lists head') :
    Represents lists' { m with sleNext := Function.update m.sleNext elm q } := by
  have helm : elm ∈ lists head := by
    rw [hold]
    simp
  have hin (head' : H) (x : α) (hx : x ∈ lists' head') :
      x ∈ lists head' ∨ (head' = head ∧ x ∈ new) := by
    by_cases hhead : head' = head
    · subst hhead
      rw [hlist] at hx
      rw [hold]
      simp only [List.mem_append, List.mem_cons] at hx ⊢
      tauto
    · rw [hlists head' hhead] at hx
      exact Or.inl hx
  constructor
  · intro head'
    by_cases hhead : head' = head
    · subst hhead
      rw [hlist]
      exact (hold ▸ h.linked head').redirect hq hnot
    · rw [hlists head' hhead]
      apply (h.linked head').update_of_not_mem
      exact fun hx => hhead (h.apart _ _ elm hx helm)
  -- an element that has come into the list was in no other one
  · intro a b x ha hb
    rcases hin a x ha with ha | ⟨rfl, ha⟩ <;> rcases hin b x hb with hb | ⟨rfl, hb⟩
    · exact h.apart a b x ha hb
    · exact hnew x hb a ha
    · exact (hnew x ha b hb).symm
    · rfl

omit [DecidableEq α] in
theorem removeHead (h : Represents lists m) (hne : lists head ≠ []) :
    ∃ m', slistRemoveHead m head = some m' ∧
      Represents (Function.update lists head (lists head).tail) m' := by
  obtain ⟨x, rest, hlist⟩ := List.exists_cons_of_ne_nil hne
  have hlinked := h.linked head
  rw [hlist] at hlinked
  refine ⟨_, by rw [slistRemoveHead, hlinked.1]; rfl, h.setHead ?_ fun y hy => List.mem_of_mem_tail hy⟩
  rw [hlist]
  exact hlinked.2

theorem insertHead (h : Represents lists m) (hfree : ∀ head, elm ∉ lists head) :
    Represents (Function.update lists head (elm :: lists head)) (slistInsertHead m head elm) := by
  have hstored := h.storeFree hfree (m.slhFirst head)
  have hmem (head' : H) (x : α) (hx : x ∈ Function.update lists head (elm :: lists head) head') :
      x ∈ lists head' ∨ (x = elm ∧ head' = head) := by
    by_cases hhead : head' = head
    · subst hhead
      rw [Function.update_self, List.mem_cons] at hx
      exact hx.symm.imp_right fun hx => ⟨hx, rfl⟩
    · rw [Function.update_of_ne hhead] at hx
      exact Or.inl hx
  constructor
  · intro head'
    by_cases hhead : head' = head
    · subst hhead
      simp only [slistInsertHead, Function.update_self, linked_cons, true_and]
      exact hstored.linked head'
    · simp only [slistInsertHead, Function.update_of_ne hhead]
      exact hstored.linked head'
  · intro a b x ha hb
    -- two elements of the lists as they were, or one of them is the new one
    rcases hmem a x ha with hina | ⟨hx, hheada⟩ <;> rcases hmem b x hb with hinb | ⟨hx', hheadb⟩
    · exact h.apart a b x hina hinb
    · exact absurd (hx' ▸ hina) (hfree a)
    · exact absurd (hx ▸ hinb) (hfree b)
    · rw [hheada, hheadb]

theorem insertAfter {slistelm : α} (h : Represents lists m) (hmem : slistelm ∈ lists head)
    (hfree : ∀ head, elm ∉ lists head) :
    Represents (fun head => SinglyLinked.insertAfter slistelm elm (lists head))
      (slistInsertAfter m slistelm elm) := by
  obtain ⟨pre, post, hsplit⟩ := List.append_of_mem hmem
  have hlinked := h.linked head
  rw [hsplit] at hlinked
  have hnodup := hlinked.nodup
  rw [List.nodup_append, List.nodup_cons] at hnodup
  obtain ⟨-, ⟨hpost, -⟩, hpre⟩ := hnodup
  have hne : slistelm ≠ elm := by
    rintro rfl
    exact hfree head hmem
  have helm : elm ∉ post := by
    intro hx
    apply hfree head
    rw [hsplit]
    simp [hx]
  have hnew : Linked (Function.update m.sleNext elm (m.sleNext slistelm)) (some elm) (elm :: post) := by
    refine ⟨rfl, ?_⟩
    rw [Function.update_self]
    exact hlinked.rest.update_of_not_mem helm _
  -- first the link of the new element, which is in no list yet, then the one that leads to it
  apply (h.storeFree hfree (m.sleNext slistelm)).redirect hsplit hnew
  · simp [hne, hpost]
  · intro x hx head' hx'
    rcases List.mem_cons.mp hx with rfl | hx
    · exact absurd hx' (hfree head')
    · apply h.apart head' head x hx'
      rw [hsplit]
      simp [hx]
  · rw [hsplit]
    exact insertAfter_append fun hx => hpre _ hx _ List.mem_cons_self rfl
  · intro head' hhead
    exact insertAfter_of_not_mem fun hx => hhead (h.apart _ _ _ hx hmem)

/-- Unlinking what follows an element. -/
theorem unlink {slistelm : α} {post : List α} (h : Represents lists m)
    (hsplit : lists head = pre ++ slistelm :: elm :: post)
    (hlist : lists' head = pre ++ slistelm :: post) (hlists : ∀ head' ≠ head, lists' head' = lists head') :
    ∃ m', slistRemoveAfter m slistelm = some m' ∧ Represents lists' m' := by
  have hlinked := h.linked head
  rw [hsplit] at hlinked
  have hnodup := hlinked.nodup
  rw [List.nodup_append, List.nodup_cons] at hnodup
  have hrest := hlinked.rest
  refine ⟨_, by rw [slistRemoveAfter, hrest.1]; rfl, h.redirect hsplit hrest.2 ?_ ?_ hlist hlists⟩
  · exact fun hx => hnodup.2.1.1 (List.mem_cons_of_mem _ hx)
  · intro x hx head' hx'
    apply h.apart head' head x hx'
    rw [hsplit]
    simp [hx]

theorem removeAfter {slistelm : α} (h : Represents lists m) (hlast : slistelm ∈ (lists head).dropLast) :
    ∃ m', slistRemoveAfter m slistelm = some m' ∧
      Represents (fun head => SinglyLinked.removeAfter slistelm (lists head)) m' := by
  obtain ⟨pre, elm, post, hsplit⟩ :
      ∃ pre elm post, lists head = pre ++ slistelm :: elm :: post := by
    -- an element that is not the last has one behind it
    obtain ⟨pre, post, hdrop⟩ := List.append_of_mem hlast
    have hne : lists head ≠ [] := List.ne_nil_of_mem (List.mem_of_mem_dropLast hlast)
    have hall := List.dropLast_append_getLast hne
    rw [hdrop, List.append_assoc, List.cons_append] at hall
    cases post with
    | nil => exact ⟨pre, _, [], hall.symm⟩
    | cons x post => exact ⟨pre, x, post ++ [(lists head).getLast hne], hall.symm⟩
  have hnodup := (h.linked head).nodup
  have hmem : slistelm ∈ lists head := by
    rw [hsplit]
    simp
  rw [hsplit, List.nodup_append] at hnodup
  apply h.unlink hsplit
  · rw [hsplit]
    exact removeAfter_append fun hx => hnodup.2.2 _ hx _ List.mem_cons_self rfl
  · intro head' hhead
    exact removeAfter_of_not_mem fun hx => hhead (h.apart _ _ _ hx hmem)

omit [DecidableEq H] in
theorem removeLoop_eq {x y : α} {post : List α} (fuel : ℕ) :
    ∀ {p : Option α} {pre : List α}, Linked m.sleNext p (pre ++ y :: x :: post) → x ∉ pre ++ [y] →
      pre.length < fuel → removeLoop m x fuel p = some (some y) := by
  induction fuel with
  | zero =>
    intro p pre _ _ hfuel
    omega
  | succ fuel ih =>
    intro p pre h hx hfuel
    cases pre with
    | nil => rw [h.1, removeLoop, if_pos h.2.1]
    | cons z pre =>
      rw [List.cons_append, List.mem_cons, not_or] at hx
      -- the element is further on, for no list comes back to it
      have hnext : m.sleNext z ≠ some x := fun hz => hx.2 (h.2.start_mem hz)
      rw [h.1, removeLoop, if_neg hnext]
      exact ih h.2 hx.2 (by simpa using hfuel)

theorem remove {fuel : ℕ} (h : Represents lists m) (hmem : elm ∈ lists head)
    (hfuel : (lists head).length ≤ fuel) :
    ∃ m', slistRemove m fuel head elm = some (some m') ∧
      Represents (Function.update lists head ((lists head).erase elm)) m' := by
  have hlinked := h.linked head
  by_cases hfirst : m.slhFirst head = some elm
  · have hne : lists head ≠ [] := List.ne_nil_of_mem hmem
    obtain ⟨m', hremoved, hrep⟩ := h.removeHead hne
    obtain ⟨x, rest, hlist⟩ := List.exists_cons_of_ne_nil hne
    rw [hlist] at hlinked
    have hx : x = elm := Option.some.inj (hlinked.1.symm.trans hfirst)
    refine ⟨m', by rw [slistRemove, if_pos hfirst, hremoved], ?_⟩
    rw [hlist, hx, List.erase_cons_head]
    rw [hlist] at hrep
    exact hrep
  · -- there is an element before the one to be removed
    obtain ⟨before, post, hbefore, hsplit, herase⟩ := List.exists_erase_eq hmem
    have hne : before ≠ [] := by
      rintro rfl
      rw [hsplit] at hlinked
      exact hfirst hlinked.1
    obtain ⟨pre, y, rfl⟩ := (List.eq_nil_or_concat' before).resolve_left hne
    rw [List.append_assoc] at hsplit herase
    have hlist : Function.update lists head ((lists head).erase elm) head = pre ++ y :: post := by
      rw [Function.update_self, herase]
      rfl
    obtain ⟨m', hunlinked, hrep⟩ :=
      h.unlink hsplit hlist fun head' hhead => Function.update_of_ne hhead _ _
    rw [hsplit] at hlinked
    have hlength := congrArg List.length hsplit
    rw [List.length_append] at hlength
    have hloop := removeLoop_eq fuel hlinked hbefore (by simp at hlength; omega)
    refine ⟨m', ?_, hrep⟩
    rw [slistRemove, if_neg hfirst, hloop]
    simp only [Option.map_some, Option.bind_some, hunlinked]

omit [DecidableEq α] in
theorem swap (h : Represents lists m) (head1 head2 : H) :
    Represents (Function.update (Function.update lists head1 (lists head2)) head2 (lists head1))
      (slistSwap m head1 head2) := by
  simp only [slistSwap, ← Equiv.comp_swap_eq_update]
  constructor
  · intro head
    exact h.linked _
  · intro a b x ha hb
    exact (Equiv.swap head2 head1).injective (h.apart _ _ x ha hb)

omit [DecidableEq H] [DecidableEq α] in
theorem foreach {fuel : ℕ} : ∀ {p : Option α} {xs : List α}, Linked m.sleNext p xs → xs.length ≤ fuel →
    slistForeach m fuel p = some xs := by
  induction fuel with
  | zero =>
    intro p xs h hfuel
    have hnil : xs = [] := List.eq_nil_of_length_eq_zero (by omega)
    subst hnil
    rw [linked_nil.mp h]
    rfl
  | succ fuel ih =>
    intro p xs h hfuel
    cases xs with
    | nil =>
      rw [linked_nil.mp h]
      rfl
    | cons x xs =>
      rw [h.1, slistForeach, ih h.2 (by simpa using hfuel)]
      rfl

/-- One macro, used where it may be. -/
theorem step (h : Represents lists m) {call : SListCall H α} (hfits : Fits lists call) :
    Represents (plainLists.step lists call).1 (slist.step m call).1 ∧
      (plainLists.step lists call).2 = (slist.step m call).2 := by
  cases call with
  | init head => exact ⟨h.setHead rfl fun x hx => absurd hx List.not_mem_nil, rfl⟩
  | insertHead head elm => exact ⟨h.insertHead hfits, rfl⟩
  | insertAfter slistelm elm =>
    obtain ⟨⟨head, hmem⟩, hfree⟩ := hfits
    exact ⟨h.insertAfter hmem hfree, rfl⟩
  | removeHead head =>
    obtain ⟨m', hremoved, hrep⟩ := h.removeHead hfits
    simp only [slist, hremoved]
    exact ⟨hrep, rfl⟩
  | removeAfter slistelm =>
    obtain ⟨head, hlast⟩ := hfits
    obtain ⟨m', hremoved, hrep⟩ := h.removeAfter hlast
    simp only [slist, hremoved]
    exact ⟨hrep, rfl⟩
  | remove head elm fuel =>
    obtain ⟨m', hremoved, hrep⟩ := h.remove hfits.1 hfits.2
    simp only [slist, hremoved]
    exact ⟨hrep, rfl⟩
  | swap head1 head2 => exact ⟨h.swap head1 head2, rfl⟩
  | empty head =>
    refine ⟨h, ?_⟩
    simp only [plainLists, slist, slistEmpty, (h.linked head).start_eq]
    cases lists head <;> rfl
  | first head =>
    refine ⟨h, ?_⟩
    simp only [plainLists, slist, (h.linked head).start_eq]
  | foreach head fuel =>
    refine ⟨h, ?_⟩
    simp only [plainLists, slist, foreach (h.linked head) hfits]

end Represents

theorem represents_run {m : SListMem H α} {lists : H → List α} (h : Represents lists m)
    {calls : List (SListCall H α)} (hfits : plainLists.Guarded Fits lists calls) :
    slist.outputs m calls = plainLists.outputs lists calls ∧
      Represents (plainLists.final lists calls) (slist.final m calls) := by
  have hrun := hfits.simulation slist Represents id id (fun _ _ _ hrep hok => hrep.step hok) h
  rw [List.map_id, List.map_id] at hrun
  exact ⟨hrun.2.symm, hrun.1⟩

/-- Over any run of the macros that are used where they may be, none of them follows NULL
or runs for ever, every answer is that of the plain lists, and the memory holds them. -/
theorem slist_represents_lists (m : SListMem H α) {lists : H → List α} (h : Represents lists m)
    (calls : List (SListCall H α)) (hfits : plainLists.Guarded Fits lists calls) :
    slist.outputs m calls = plainLists.outputs lists calls ∧
      Represents (plainLists.final lists calls) (slist.final m calls) ∧
      .fault ∉ slist.outputs m calls ∧ .running ∉ slist.outputs m calls := by
  obtain ⟨houtputs, hrep⟩ := represents_run h hfits
  have hplain (reply : SListReply α) (hmem : reply ∈ plainLists.outputs lists calls) :
      reply ≠ .fault ∧ reply ≠ .running := by
    clear hfits houtputs hrep h
    induction calls generalizing lists with
    | nil => exact absurd hmem List.not_mem_nil
    | cons call calls ih =>
      rcases List.mem_cons.mp hmem with rfl | hrest
      · cases call <;> exact ⟨nofun, nofun⟩
      · exact ih hrest
  rw [houtputs]
  exact ⟨rfl, hrep, fun hmem => (hplain _ hmem).1 rfl, fun hmem => (hplain _ hmem).2 rfl⟩

end Machines

/-- Two lists change places, and one of them loses its elements again. -/
def twoHeads : List (SListCall Bool ℕ) :=
  [.init false, .insertHead false 1, .insertAfter 1 2, .insertAfter 1 4, .insertHead true 3,
    .swap true false, .removeAfter 1, .remove true 2 2, .foreach true 1, .removeHead true, .empty true,
    .first false]

theorem slist_represents_lists_two_heads :
    let m : SListMem Bool ℕ := ⟨fun _ => none, fun _ => some 7⟩
    slist.outputs m twoHeads =
        List.replicate 8 .done ++ [.visited [1], .done, .isEmpty true, .found (some 3)] ∧
      Represents (plainLists.final (fun _ => []) twoHeads) (slist.final m twoHeads) := by
  intro m
  have hstart : Represents (fun _ => []) m := ⟨fun _ => rfl, fun _ _ _ hx => absurd hx List.not_mem_nil⟩
  obtain ⟨houtputs, hrep, -⟩ := slist_represents_lists m hstart twoHeads (by decide +kernel)
  exact ⟨houtputs.trans (by decide), hrep⟩

end ProvenAesd.Server
