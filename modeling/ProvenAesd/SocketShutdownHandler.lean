import ProvenAesd.SocketShutdownMain

/-! The handler, from the signal on, beside the session threads. -/
namespace ProvenAesd.Server

/-- The node that is still on the list. Main has started the join of its thread if it
is inside `pthread_join`. -/
structure Remaining (s : ServerState) (os : List ShutdownEvent) (n : ℕ) : Prop where
  head_eq : s.head = [n]
  tid_eq : s.thread n ≠ .joined → (s.node n).tid = n
  started : s.pc = .joining → n ∈ logOf ServerEvent.joinStarts os

/-- The list at each statement of the handler. -/
def HandlerAt (s : ServerState) (os : List ShutdownEvent) : HandlerPc → Prop
  | .testCount => s.head = [] ∨ ∃ n, Remaining s os n ∧ s.threadCount > 0
  | .loopTest => s.head = [] ∨ ∃ n, Remaining s os n
  | .takeHead => ∃ n, Remaining s os n
  | .testFd => Remaining s os s.datap
  | .join | .joining => Remaining s os s.datap ∧ s.thread s.datap ≠ .joined
  | .countDown | .testSocket | .removeHead =>
    s.head = [s.datap] ∧ 3 ≤ (s.thread s.datap).rank
  -- a descriptor that is not negative is joined for, and reset by then
  | .closeSocket => False
  | .freeNode =>
    s.head = [] ∧ 3 ≤ (s.thread s.datap).rank ∧ s.datap ∉ logOf ServerEvent.frees os
  | .cleanUp | .exited => s.head = []

/-- A join that has been started is over, or it is main's or the handler's. -/
structure HandlerPhase (pc : HandlerPc) (s : ServerState) (os : List ShutdownEvent) : Prop where
  joins : ∀ n ∈ logOf ServerEvent.joinStarts os,
    s.thread n = .joined ∨ s.pc = .joining ∨ (pc = .joining ∧ n = s.datap)
  at_pc : HandlerAt s os pc

theorem Remaining.next {s t : ServerState} {os : List ShutdownEvent} {o : ShutdownEvent} {n : ℕ}
    (h : Remaining s os n) (hhead : t.head = s.head) (hjoined : t.thread n = .joined ↔
      s.thread n = .joined) (htid : (t.node n).tid = (s.node n).tid) (hpc : t.pc = s.pc) :
    Remaining t (os ++ [o]) n := by
  refine ⟨hhead.trans h.head_eq, fun hne => ?_, fun hj => ?_⟩
  · rw [htid]
    exact h.tid_eq (mt hjoined.mpr hne)
  · rw [logOf_concat]
    rw [hpc] at hj
    exact List.mem_append_left _ (h.started hj)

/-- A statement of the handler that leaves the threads alone. -/
theorem HandlerPhase.next {s t : ServerState} {os : List ShutdownEvent} {o : ShutdownEvent}
    {pc pc' : HandlerPc} (h : HandlerPhase pc s os) (hpc : pc ≠ .joining) (hmain : t.pc = s.pc)
    (hthread : t.thread = s.thread) (hjoins : o.event.joinStarts = [])
    (hat : HandlerAt t (os ++ [o]) pc') : HandlerPhase pc' t (os ++ [o]) := by
  refine ⟨fun n hn => ?_, hat⟩
  rw [logOf_quiet hjoins] at hn
  rw [hthread, hmain]
  rcases h.joins n hn with hj | hj | ⟨hj, -⟩
  · exact Or.inl hj
  · exact Or.inr (Or.inl hj)
  · exact absurd hj hpc

/-- Where main is when the signal arrives, the handler finds a list it can work off. -/
theorem handlerPhase_of_signal {s : ServerState} {os : List ShutdownEvent} (hr : ReapInv s)
    (hm : MainPhase s os) (o : ShutdownEvent) (ho : o.event.joinStarts = []) :
    HandlerPhase .testCount s (os ++ [o]) := by
  constructor
  · intro n hn
    rw [logOf_quiet ho] at hn
    rcases hm.joins n hn with hj | ⟨hj, -⟩
    · exact Or.inl hj
    · exact Or.inr (Or.inl hj)
  · have hlisted {n : ℕ} (hn : Listed s n) (hstart : s.pc = .joining → n = s.datap) :
        ∃ n, Remaining s (os ++ [o]) n ∧ s.threadCount > 0 := by
      refine ⟨n, ⟨hn.head_eq, fun _ => hn.tid_eq, fun hj => ?_⟩, by rw [hn.count_eq]; decide⟩
      rw [logOf_quiet ho, hstart hj]
      exact hm.started hj
    have hat := hm.at_pc
    unfold ReapInv at hr
    unfold MainAt at hat
    cases hpc : s.pc with
    | accept | populate | createThread =>
      simp only [hpc] at hr
      exact Or.inl hr.head_eq
    | recordTid | countThread =>
      simp only [hpc] at hr
      exact Or.inl hr.1.head_eq
    | insertHead | freeNode | decrement =>
      simp only [hpc] at hr
      exact Or.inl hr.1
    | loopTest =>
      simp only [hpc] at hr
      rcases hr with hidle | ⟨n, hn⟩
      · exact Or.inl hidle.head_eq
      · exact Or.inr (hlisted hn fun hj => by rw [hpc] at hj; cases hj)
    | takeHead =>
      simp only [hpc] at hr
      obtain ⟨n, hn⟩ := hr
      exact Or.inr (hlisted hn fun hj => by rw [hpc] at hj; cases hj)
    | testFd | join | joining =>
      simp only [hpc] at hr
      exact Or.inr (hlisted hr fun _ => rfl)
    | removeHead =>
      -- main has joined the thread and not yet taken the node off the list
      simp only [hpc] at hr hat
      refine Or.inr ⟨s.datap, ⟨hr.1, fun hne => absurd hat.1 hne, fun hj => ?_⟩, ?_⟩
      · rw [hpc] at hj
        cases hj
      · rw [hr.2]
        decide

section Handler

variable {s : ServerState} {os : List ShutdownEvent} {pc : HandlerPc} (h : Recorded s os)
  (hp : HandlerPhase pc s os)

include h hp

/-- A statement of the handler is allowed by the record, if it does not start a join
that main has started already. -/
theorem handlerStep_allowed (halone : pc = .join → s.pc ≠ .joining) :
    Allowed s (handlerStep s pc).1.server os (handlerStep s pc).2 := by
  have hquiet {t : ServerState} (ht : t = s) : Allowed s t os (.handler .quiet []) := by
    subst ht
    exact h.keepQuiet rfl rfl rfl (List.suffix_refl _) rfl rfl rfl (List.forall_mem_nil _)
  have hat := hp.at_pc
  cases pc with
  | testCount =>
    simp only [handlerStep]
    split
    · exact hquiet rfl
    · exact hquiet rfl
  | loopTest =>
    simp only [handlerStep]
    split
    · exact hquiet rfl
    · exact hquiet rfl
  | takeHead =>
    obtain ⟨n, hn⟩ := hat
    simp only [handlerStep, hn.head_eq]
    refine h.keepQuiet rfl rfl rfl ?_ rfl rfl rfl (List.forall_mem_nil _)
    rw [hn.head_eq]
  | testFd =>
    have hn : Remaining s os s.datap := hat
    have huses : ∀ n ∈ [s.datap], n ∉ logOf ServerEvent.frees os :=
      List.forall_mem_singleton.mpr (h.of_head hn.head_eq).2
    simp only [handlerStep]
    split
    · exact h.keepQuiet rfl rfl rfl (List.suffix_refl _) rfl rfl rfl huses
    · exact h.keepQuiet rfl rfl rfl (List.suffix_refl _) rfl rfl rfl huses
  | join =>
    obtain ⟨hn, hunjoined⟩ : Remaining s os s.datap ∧ s.thread s.datap ≠ .joined := hat
    -- where main is not inside a join, this one is the first of its thread
    have hnew : s.datap ∉ logOf ServerEvent.joinStarts os := by
      intro hj
      rcases hp.joins s.datap hj with hjoined | hinside | ⟨hpc, -⟩
      · exact hunjoined hjoined
      · exact halone rfl hinside
      · cases hpc
    simp only [handlerStep, hn.tid_eq hunjoined]
    exact h.keepJoin rfl rfl rfl rfl rfl hnew
      (List.forall_mem_singleton.mpr (h.of_head hn.head_eq).2)
  | joining =>
    obtain ⟨hn, hunjoined⟩ : Remaining s os s.datap ∧ s.thread s.datap ≠ .joined := hat
    simp only [handlerStep, hn.tid_eq hunjoined]
    by_cases hend : s.thread s.datap = .ended
    · simp only [if_pos hend]
      exact h.moveJoined hend rfl rfl rfl rfl rfl (List.forall_mem_nil _)
    · simp only [if_neg hend]
      exact hquiet rfl
  | countDown =>
    have hhead : s.head = [s.datap] := hat.1
    exact h.keepQuiet rfl rfl rfl (List.suffix_refl _) rfl rfl rfl
      (List.forall_mem_singleton.mpr (h.of_head hhead).2)
  | testSocket =>
    have hhead : s.head = [s.datap] := hat.1
    have huses : ∀ n ∈ [s.datap], n ∉ logOf ServerEvent.frees os :=
      List.forall_mem_singleton.mpr (h.of_head hhead).2
    simp only [handlerStep]
    split
    · exact h.keepQuiet rfl rfl rfl (List.suffix_refl _) rfl rfl rfl huses
    · exact h.keepQuiet rfl rfl rfl (List.suffix_refl _) rfl rfl rfl huses
  | closeSocket => exact hat.elim
  | removeHead =>
    have hhead : s.head = [s.datap] := hat.1
    simp only [handlerStep, hhead]
    exact h.keepQuiet rfl rfl rfl List.nil_suffix rfl rfl rfl
      (List.forall_mem_singleton.mpr (h.of_head hhead).2)
  | freeNode =>
    obtain ⟨hhead, hrank, hlive⟩ : s.head = [] ∧ 3 ≤ (s.thread s.datap).rank ∧
      s.datap ∉ logOf ServerEvent.frees os := hat
    exact h.keepFree rfl rfl rfl hhead rfl rfl hrank hlive (List.forall_mem_singleton.mpr hlive)
  | cleanUp | exited => exact hquiet rfl

/-- And the handler goes on to a statement it can work at. -/
theorem handlerStep_phase :
    ∃ pc', (handlerStep s pc).1.handler = some pc' ∧
      HandlerPhase pc' (handlerStep s pc).1.server (os ++ [(handlerStep s pc).2]) := by
  have hat := hp.at_pc
  cases pc with
  | testCount =>
    simp only [handlerStep]
    by_cases hcount : s.threadCount > 0
    · simp only [if_pos hcount]
      refine ⟨_, rfl, hp.next (by simp) rfl rfl rfl ?_⟩
      rcases hat with hnil | ⟨n, hn, -⟩
      · exact Or.inl hnil
      · exact Or.inr ⟨n, hn.next rfl Iff.rfl rfl rfl⟩
    · simp only [if_neg hcount]
      -- with a node on the list the counter is not 0
      refine ⟨_, rfl, hp.next (by simp) rfl rfl rfl ?_⟩
      rcases hat with hnil | ⟨n, -, hn⟩
      · exact hnil
      · exact absurd hn hcount
  | loopTest =>
    simp only [handlerStep]
    rcases hat with hnil | ⟨n, hn⟩
    · simp only [hnil]
      exact ⟨_, rfl, hp.next (by simp) rfl rfl rfl hnil⟩
    · simp only [hn.head_eq]
      exact ⟨_, rfl, hp.next (by simp) rfl rfl rfl ⟨n, hn.next rfl Iff.rfl rfl rfl⟩⟩
  | takeHead =>
    obtain ⟨n, hn⟩ := hat
    simp only [handlerStep, hn.head_eq]
    refine ⟨_, rfl, hp.next (by simp) rfl rfl rfl ?_⟩
    exact hn.next hn.head_eq.symm Iff.rfl rfl rfl
  | testFd =>
    have hn : Remaining s os s.datap := hat
    have hcreated := (h.of_head hn.head_eq).1
    simp only [handlerStep]
    by_cases hfd : (s.node s.datap).clientSocketFd ≥ 0
    · simp only [if_pos hfd]
      refine ⟨_, rfl, hp.next (by simp) rfl rfl rfl ⟨hn.next rfl Iff.rfl rfl rfl, fun hj => ?_⟩⟩
      -- a thread that is over has reset its descriptor
      have hreset := h.reset_fd s.datap (by rw [hj]; decide)
      omega
    · simp only [if_neg hfd]
      refine ⟨_, rfl, hp.next (by simp) rfl rfl rfl ⟨hn.head_eq, ?_⟩⟩
      by_contra hrank
      exact hfd (h.open_fd s.datap hcreated (not_le.mp hrank))
  | join =>
    obtain ⟨hn, hunjoined⟩ : Remaining s os s.datap ∧ s.thread s.datap ≠ .joined := hat
    simp only [handlerStep, hn.tid_eq hunjoined]
    refine ⟨_, rfl, fun n hmem => ?_, hn.next rfl Iff.rfl rfl rfl, hunjoined⟩
    rw [logOf_concat] at hmem
    rcases List.mem_append.mp hmem with hold | hself
    · rcases hp.joins n hold with hjoined | hinside | ⟨hpc, -⟩
      · exact Or.inl hjoined
      · exact Or.inr (Or.inl hinside)
      · cases hpc
    · exact Or.inr (Or.inr ⟨rfl, List.mem_singleton.mp hself⟩)
  | joining =>
    obtain ⟨hn, hunjoined⟩ : Remaining s os s.datap ∧ s.thread s.datap ≠ .joined := hat
    simp only [handlerStep, hn.tid_eq hunjoined]
    by_cases hend : s.thread s.datap = .ended
    · simp only [if_pos hend]
      refine ⟨_, rfl, fun n hmem => ?_, hn.head_eq, ?_⟩
      · rw [logOf_quiet rfl] at hmem
        by_cases hself : n = s.datap
        · exact Or.inl (by simp [hself])
        · rcases hp.joins n hmem with hjoined | hinside | ⟨-, hdatap⟩
          · exact Or.inl (by simp [Function.update_of_ne hself, hjoined])
          · exact Or.inr (Or.inl hinside)
          · exact absurd hdatap hself
      · simp [ThreadPhase.rank]
    · simp only [if_neg hend]
      refine ⟨_, rfl, ?_, hn.next rfl Iff.rfl rfl rfl, hunjoined⟩
      rw [logOf_quiet rfl]
      exact hp.joins
  | countDown => exact ⟨_, rfl, hp.next (by simp) rfl rfl rfl hat⟩
  | testSocket =>
    -- the thread has closed its socket and stored -1
    have hrank : 3 ≤ (s.thread s.datap).rank := hat.2
    simp only [handlerStep, h.reset_fd s.datap hrank, ne_eq, not_true_eq_false, if_false]
    exact ⟨_, rfl, hp.next (by simp) rfl rfl rfl hat⟩
  | closeSocket => exact hat.elim
  | removeHead =>
    obtain ⟨hhead, hrank⟩ : s.head = [s.datap] ∧ 3 ≤ (s.thread s.datap).rank := hat
    simp only [handlerStep, hhead]
    refine ⟨_, rfl, hp.next (by simp) rfl rfl rfl ⟨rfl, hrank, ?_⟩⟩
    rw [logOf_quiet rfl]
    exact (h.of_head hhead).2
  | freeNode =>
    have hhead : s.head = [] := hat.1
    exact ⟨_, rfl, hp.next (by simp) rfl rfl rfl (Or.inl hhead)⟩
  | cleanUp | exited => exact ⟨_, rfl, hp.next (by simp) rfl rfl rfl hat⟩

end Handler

theorem HandlerPhase.thread {s : ServerState} {os : List ShutdownEvent} (n : ℕ) {o : ShutdownEvent}
    (ho : o.event = (threadStep s n).2) {pc : HandlerPc} (h : HandlerPhase pc s os) :
    HandlerPhase pc (threadStep s n).1 (os ++ [o]) := by
  have hf := threadStep_frame s n
  obtain ⟨-, -, hrank⟩ := threadStep_rank s n
  obtain ⟨hjoins, hfrees⟩ := logOf_threadStep n ho os
  have hremaining {m : ℕ} (hm : Remaining s os m) : Remaining (threadStep s n).1 (os ++ [o]) m :=
    hm.next hf.head (hf.joined m) (hf.node_tid m) hf.pc
  constructor
  · intro m hm
    rw [hjoins] at hm
    rw [hf.joined, hf.pc, hf.datap]
    exact h.joins m hm
  · have hat := h.at_pc
    cases pc with
    | testCount =>
      rcases hat with hnil | ⟨m, hm, hcount⟩
      · exact Or.inl (hf.head.trans hnil)
      · refine Or.inr ⟨m, hremaining hm, ?_⟩
        rw [hf.count]
        exact hcount
    | loopTest =>
      rcases hat with hnil | ⟨m, hm⟩
      · exact Or.inl (hf.head.trans hnil)
      · exact Or.inr ⟨m, hremaining hm⟩
    | takeHead =>
      obtain ⟨m, hm⟩ := hat
      exact ⟨m, hremaining hm⟩
    | testFd =>
      change Remaining _ _ _
      rw [hf.datap]
      exact hremaining hat
    | join | joining =>
      change Remaining _ _ _ ∧ _
      rw [hf.datap, ne_eq, hf.joined]
      exact ⟨hremaining hat.1, hat.2⟩
    | countDown | testSocket | removeHead =>
      change _ = _ ∧ 3 ≤ _
      rw [hf.head, hf.datap]
      exact ⟨hat.1, hat.2.trans (hrank s.datap).1⟩
    | closeSocket => exact hat
    | freeNode =>
      change _ = _ ∧ 3 ≤ _ ∧ _
      rw [hf.head, hf.datap, hfrees]
      exact ⟨hat.1, hat.2.1.trans (hrank s.datap).1, hat.2.2⟩
    | cleanUp | exited => exact hf.head.trans hat

end ProvenAesd.Server
