import ProvenAesd.SocketReaping

/-! Main creates a thread for every client, but waits for it before it accepts the
next one: sessions never overlap, and every node is freed once, in the order of
the clients. -/
namespace ProvenAesd.Server
open Mealy

def freedOf (es : List ServerEvent) : List ℕ :=
  es.filterMap fun | .freed n => some n | _ => none

def Live (s : ServerState) (m : ℕ) : Prop := s.thread m ≠ .notCreated ∧ s.thread m ≠ .joined

def joinedNode (s : ServerState) : List ℕ :=
  match s.pc with
  | .removeHead | .freeNode => [s.datap]
  | _ => []

/-- Main's place in the turn of client `k+1`, or behind that of client `k`. -/
def Turn (s : ServerState) (k : ℕ) : Prop :=
  match s.pc with
  | .accept | .populate => s.nextNode = k+1
  | .createThread | .recordTid | .countThread | .insertHead | .testFd | .join | .joining =>
    s.nextNode = k+2 ∧ s.datap = k+1
  | .loopTest => (s.head = [] ∧ s.nextNode = k+1) ∨ (s.head = [k+1] ∧ s.nextNode = k+2)
  | .takeHead => s.head = [k+1] ∧ s.nextNode = k+2
  | .removeHead | .freeNode | .decrement => s.nextNode = k+1 ∧ s.datap = k

/-- The threads of the first `k` clients are joined, and only these. -/
structure Joined (thread : ℕ → ThreadPhase) (nextNode k : ℕ) : Prop where
  joined_iff : ∀ m, thread m = .joined ↔ 1 ≤ m ∧ m ≤ k
  created : ∀ m, thread m ≠ .notCreated → 1 ≤ m ∧ m < nextNode

/-- The state of a run against its joins and frees. -/
structure Sequential (s : ServerState) (es : List ServerEvent) (k : ℕ) : Prop where
  inv : ReapInv s
  turn : Turn s k
  joined : Joined s.thread s.nextNode k
  joins : joinedOf es = List.range' 1 k
  frees : freedOf es ++ joinedNode s = joinedOf es

section Step

variable {s t : ServerState} {es : List ServerEvent} {e : ServerEvent} {k : ℕ}

theorem Turn.next_le (h : Turn s k) : s.nextNode ≤ k+2 := by
  unfold Turn at h
  cases hpc : s.pc <;> simp only [hpc] at h <;> omega

theorem joinedOf_concat (es : List ServerEvent) (e : ServerEvent) :
    joinedOf (es ++ [e]) = joinedOf es ++ joinedOf [e] := List.filterMap_append ..

theorem freedOf_concat (es : List ServerEvent) (e : ServerEvent) :
    freedOf (es ++ [e]) = freedOf es ++ freedOf [e] := List.filterMap_append ..

/-- A step that neither joins nor frees. -/
theorem Sequential.quiet (h : Sequential s es k) (hinv : ReapInv t) (hturn : Turn t k)
    (hjoined : Joined t.thread t.nextNode k) (hjoins : joinedOf [e] = []) (hfrees : freedOf [e] = [])
    (hnode : joinedNode t = joinedNode s) : Sequential t (es ++ [e]) k := by
  refine ⟨hinv, hturn, hjoined, ?_, ?_⟩
  · rw [joinedOf_concat, hjoins, List.append_nil, h.joins]
  · rw [joinedOf_concat, freedOf_concat, hjoins, hfrees, List.append_nil, List.append_nil, hnode,
      h.frees]

/-- A step of a session thread, as main and the joins have it. -/
theorem threadStep_sequential (h : Sequential s es k) (n : ℕ) :
    Sequential (threadStep s n).1 (es ++ [(threadStep s n).2]) k := by
  have hf := threadStep_frame s n
  have hnext : (threadStep s n).1.nextNode = s.nextNode := by
    unfold threadStep
    cases s.thread n <;> rfl
  have hcreated (m : ℕ) : (threadStep s n).1.thread m ≠ .notCreated → s.thread m ≠ .notCreated := by
    unfold threadStep
    cases hn : s.thread n <;> by_cases hm : m = n <;> simp_all
  have hquiet : joinedOf [(threadStep s n).2] = [] ∧ freedOf [(threadStep s n).2] = [] := by
    unfold threadStep
    cases s.thread n <;> exact ⟨rfl, rfl⟩
  apply h.quiet (hf.reapInv h.inv) _ _ hquiet.1 hquiet.2
  · simp only [joinedNode, hf.pc, hf.datap]
  · have hturn := h.turn
    simp only [Turn, hf.pc, hf.datap, hf.head, hnext] at hturn ⊢
    exact hturn
  · constructor
    · intro m
      rw [hf.joined, h.joined.joined_iff]
    · intro m hm
      rw [hnext]
      exact h.joined.created m (hcreated m hm)

theorem Joined.mono {thread : ℕ → ThreadPhase} {next next' : ℕ} (h : Joined thread next k)
    (hnext : next ≤ next') : Joined thread next' k := by
  refine ⟨h.joined_iff, fun m hm => ?_⟩
  have hcreated := h.created m hm
  omega

/-- Main creates the thread of the node it has just allocated. -/
theorem Joined.create {thread : ℕ → ThreadPhase} (h : Joined thread (k+2) k) :
    Joined (Function.update thread (k+1) .working) (k+2) k := by
  constructor
  · intro m
    by_cases hm : m = k+1
    · simp [hm]
    · rw [Function.update_of_ne hm]
      exact h.joined_iff m
  · intro m hcreated
    by_cases hm : m = k+1
    · omega
    · rw [Function.update_of_ne hm] at hcreated
      exact h.created m hcreated

theorem Joined.join {thread : ℕ → ThreadPhase} (h : Joined thread (k+2) k) :
    Joined (Function.update thread (k+1) .joined) (k+2) (k+1) := by
  constructor
  · intro m
    by_cases hm : m = k+1
    · simp [hm]
    · rw [Function.update_of_ne hm, h.joined_iff]
      omega
  · intro m hcreated
    by_cases hm : m = k+1
    · omega
    · rw [Function.update_of_ne hm] at hcreated
      exact h.created m hcreated

/-- A step of main ends the turn of a client, or belongs to the same turn as before. -/
theorem mainStep_sequential (h : Sequential s es k) (fd : ℕ) :
    ∃ k', Sequential (mainStep s fd).1 (es ++ [(mainStep s fd).2]) k' := by
  have hinv := mainStep_reapInv h.inv fd
  have hreap := h.inv
  have hturn := h.turn
  have hj := h.joined
  unfold ReapInv at hreap
  unfold Turn at hturn
  unfold mainStep at hinv ⊢
  cases hpc : s.pc with
  | accept =>
    simp only [hpc] at hinv hturn ⊢
    exact ⟨k, h.quiet hinv hturn hj rfl rfl (by simp [joinedNode, hpc])⟩
  -- the turn of client `k+1` begins
  | populate =>
    simp only [hpc] at hinv hturn ⊢
    refine ⟨k, h.quiet hinv ?_ (hj.mono (Nat.le_succ _)) rfl rfl (by simp [joinedNode, hpc])⟩
    simp [Turn, hturn]
  | createThread =>
    simp only [hpc] at hinv hturn ⊢
    refine ⟨k, h.quiet hinv hturn ?_ rfl rfl (by simp [joinedNode, hpc])⟩
    -- the new thread is the one that is still to be joined
    rw [hturn.1] at hj ⊢
    rw [hturn.2]
    exact hj.create
  | recordTid | countThread | join =>
    simp only [hpc] at hinv hturn ⊢
    exact ⟨k, h.quiet hinv hturn hj rfl rfl (by simp [joinedNode, hpc])⟩
  | insertHead =>
    simp only [hpc] at hinv hturn hreap ⊢
    refine ⟨k, h.quiet hinv ?_ hj rfl rfl (by simp [joinedNode, hpc])⟩
    simp [Turn, hturn.1, hturn.2, hreap.1]
  | loopTest =>
    simp only [hpc] at hinv hturn ⊢
    rcases hturn with ⟨hhead, hnext⟩ | ⟨hhead, hnext⟩
    · simp only [hhead] at hinv ⊢
      exact ⟨k, h.quiet hinv hnext hj rfl rfl (by simp [joinedNode, hpc])⟩
    · simp only [hhead] at hinv ⊢
      exact ⟨k, h.quiet hinv ⟨rfl, hnext⟩ hj rfl rfl (by simp [joinedNode, hpc])⟩
  | takeHead =>
    simp only [hpc] at hinv hturn ⊢
    simp only [hturn.1] at hinv ⊢
    exact ⟨k, h.quiet hinv ⟨hturn.2, rfl⟩ hj rfl rfl (by simp [joinedNode, hpc])⟩
  | testFd =>
    simp only [hpc] at hinv hturn hreap ⊢
    by_cases hfd : (s.node s.datap).clientSocketFd ≥ 0
    · simp only [if_pos hfd] at hinv ⊢
      exact ⟨k, h.quiet hinv hturn hj rfl rfl (by simp [joinedNode, hpc])⟩
    · simp only [if_neg hfd] at hinv ⊢
      refine ⟨k, h.quiet hinv ?_ hj rfl rfl (by simp [joinedNode, hpc])⟩
      -- main passes over the node and comes back to it
      exact Or.inr ⟨hturn.2 ▸ hreap.head_eq, hturn.1⟩
  | joining =>
    simp only [hpc] at hinv hturn hreap ⊢
    have htid : (s.node s.datap).tid = k+1 := hreap.tid_eq.trans hturn.2
    have hfrees := h.frees
    simp only [joinedNode, hpc, List.append_nil] at hfrees
    simp only [htid] at hinv ⊢
    by_cases hend : s.thread (k+1) = .ended
    · simp only [if_pos hend] at hinv ⊢
      -- the thread has ended, so that the join returns
      refine ⟨k+1, hinv, ⟨hturn.1, hturn.2⟩, ?_, ?_, ?_⟩
      · rw [hturn.1] at hj ⊢
        exact hj.join
      · rw [joinedOf_concat, h.joins, List.range'_1_concat, Nat.add_comm 1 k]
        rfl
      · -- the node that is joined is the one to be freed next
        rw [joinedOf_concat, freedOf_concat, hfrees]
        simp [joinedNode, hturn.2, joinedOf, freedOf]
    · simp only [if_neg hend] at hinv ⊢
      refine ⟨k, h.quiet hinv ?_ hj rfl rfl rfl⟩
      simp only [Turn, hpc]
      exact hturn
  | removeHead =>
    simp only [hpc] at hinv hturn hreap ⊢
    simp only [hreap.1] at hinv ⊢
    exact ⟨k, h.quiet hinv hturn hj rfl rfl (by simp [joinedNode, hpc])⟩
  | freeNode =>
    simp only [hpc] at hinv hturn ⊢
    have hfrees := h.frees
    simp only [joinedNode, hpc] at hfrees
    refine ⟨k, hinv, hturn, hj, ?_, ?_⟩
    · rw [joinedOf_concat, h.joins]
      exact List.append_nil _
    · rw [joinedOf_concat, freedOf_concat]
      simp only [joinedNode, List.append_nil]
      rw [← hfrees]
      simp [joinedOf, freedOf]
  | decrement =>
    simp only [hpc] at hinv hturn hreap ⊢
    refine ⟨k, h.quiet hinv ?_ hj rfl rfl (by simp [joinedNode, hpc])⟩
    exact Or.inl ⟨hreap.1, hturn.1⟩

theorem sequential_run (steps : List ServerStep) :
    ∃ k, Sequential (server.final serverInit steps) (server.outputs serverInit steps) k := by
  apply (server.guarded_true serverInit steps).history fun s _ es => ∃ k, Sequential s es k
  · refine ⟨0, ⟨rfl, rfl⟩, rfl, ⟨fun m => ?_, fun m hm => absurd rfl hm⟩, rfl, rfl⟩
    exact iff_of_false nofun (by omega)
  · rintro s _ es step ⟨k, h⟩ _
    cases step with
    | main fd => exact mainStep_sequential h fd
    | thread n => exact ⟨k, threadStep_sequential h n⟩

theorem Sequential.live (h : Sequential s es k) {m : ℕ} (hm : Live s m) :
    k < m ∧ m < s.nextNode := by
  have hcreated := h.joined.created m hm.1
  have hnot := mt (h.joined.joined_iff m).mpr hm.2
  omega

theorem Sequential.freed (h : Sequential s es k) :
    freedOf es = joinedOf es ∨ freedOf es = (joinedOf es).dropLast := by
  have hfrees := h.frees
  cases hpc : s.pc with
  | removeHead | freeNode =>
    simp only [joinedNode, hpc] at hfrees
    rw [← hfrees, List.dropLast_concat]
    exact Or.inr rfl
  | _ =>
    simp only [joinedNode, hpc, List.append_nil] at hfrees
    exact Or.inl hfrees

theorem Sequential.at_accept (h : Sequential s es k) (hpc : s.pc = .accept) :
    s.nextNode = k+1 ∧ freedOf es = joinedOf es ∧ ∀ m, ¬Live s m := by
  have hturn := h.turn
  have hfrees := h.frees
  simp only [Turn, hpc] at hturn
  simp only [joinedNode, hpc, List.append_nil] at hfrees
  refine ⟨hturn, hfrees, fun m hm => ?_⟩
  have hbounds := h.live hm
  omega

end Step

/-- However main and the session threads interleave, only the thread behind those that
have been joined can be alive, and the nodes are freed once, in their order. When main
is at `accept` again, all threads are joined and all nodes are freed. -/
theorem sessions_one_at_a_time (steps : List ServerStep) :
    let s := server.final serverInit steps
    let es := server.outputs serverInit steps
    let joins := (joinedOf es).length
    joinedOf es = List.range' 1 joins ∧
      (freedOf es = joinedOf es ∨ freedOf es = (joinedOf es).dropLast) ∧
      (∀ m, Live s m → m = joins+1) ∧
      (s.pc = .accept → s.nextNode = joins+1 ∧ freedOf es = joinedOf es ∧ ∀ m, ¬Live s m) := by
  obtain ⟨k, h⟩ := sequential_run steps
  intro s es joins
  have hk : joins = k := by
    change (joinedOf es).length = k
    rw [h.joins, List.length_range']
  rw [hk]
  refine ⟨h.joins, h.freed, fun m hm => ?_, h.at_accept⟩
  have hnext := h.turn.next_le
  have hbounds := h.live hm
  omega

end ProvenAesd.Server
