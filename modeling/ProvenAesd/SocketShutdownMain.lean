import ProvenAesd.SocketRecord

/-! Main, until the signal arrives, beside the session threads. -/
namespace ProvenAesd.Server

/-- What the node main is at work on has to do with the record. -/
def MainAt (s : ServerState) (os : List ShutdownEvent) : Prop :=
  match s.pc with
  | .populate => 0 ≤ s.clientSocketFd
  | .createThread =>
    (s.thread s.datap).rank = 0 ∧ 0 ≤ (s.node s.datap).clientSocketFd ∧ s.datap < s.nextNode
  | .recordTid | .countThread | .insertHead =>
    1 ≤ (s.thread s.datap).rank ∧ s.datap ∉ logOf ServerEvent.frees os
  | .removeHead | .freeNode =>
    s.thread s.datap = .joined ∧ s.datap ∉ logOf ServerEvent.frees os
  | .accept | .loopTest | .takeHead | .testFd | .join | .joining | .decrement => True

/-- A join that main has started is over, or main is inside it. -/
structure MainPhase (s : ServerState) (os : List ShutdownEvent) : Prop where
  joins : ∀ n ∈ logOf ServerEvent.joinStarts os,
    s.thread n = .joined ∨ (s.pc = .joining ∧ n = s.datap)
  started : s.pc = .joining → s.datap ∈ logOf ServerEvent.joinStarts os
  at_pc : MainAt s os

theorem MainPhase.next {s t : ServerState} {os : List ShutdownEvent} {o : ShutdownEvent}
    (h : MainPhase s os) (hpc : s.pc ≠ .joining) (hpc' : t.pc ≠ .joining)
    (hjoins : o.event.joinStarts = []) (hjoined : ∀ n, s.thread n = .joined → t.thread n = .joined)
    (hat : MainAt t (os ++ [o])) : MainPhase t (os ++ [o]) := by
  refine ⟨fun n hn => ?_, fun hj => absurd hj hpc', hat⟩
  rw [logOf_concat, hjoins, List.append_nil] at hn
  rcases h.joins n hn with hold | ⟨hj, -⟩
  · exact Or.inl (hjoined n hold)
  · exact absurd hj hpc

section Main

variable {s : ServerState} {os : List ShutdownEvent} (h : Recorded s os) (hr : ReapInv s)
  (hm : MainPhase s os)

include h hr hm

/-- A statement of main is allowed by the record. -/
theorem mainStep_allowed (fd : ℕ) :
    Allowed s (mainStep s fd).1 os (.server (mainStep s fd).2 (mainUses s)) := by
  have hat := hm.at_pc
  unfold ReapInv at hr
  unfold MainAt at hat
  unfold mainStep mainUses
  cases hpc : s.pc with
  | accept | countThread | decrement =>
    exact h.keepQuiet rfl rfl rfl (List.suffix_refl _) rfl rfl rfl (List.forall_mem_nil _)
  | populate =>
    -- the node is new, and no thread has it yet
    have hfresh := h.fresh s.nextNode le_rfl
    have hlive : s.nextNode ∉ logOf ServerEvent.frees os := h.unfreed (by omega)
    refine h.keepSilent rfl ?_ (Nat.le_succ _) (fun _ => Or.inl) rfl rfl rfl
      (List.forall_mem_singleton.mpr hlive)
    intro n hn
    have hlt := h.lt_nextNode hn
    simp [Function.update_of_ne hlt.ne]
  | createThread =>
    simp only [hpc] at hat
    obtain ⟨hrank, hfd, hlt⟩ := hat
    have hlive : s.datap ∉ logOf ServerEvent.frees os := h.unfreed (by omega)
    refine h.move rfl hlt (by rw [hrank]; exact Nat.zero_le _) (fun _ _ => rfl) ?_ ?_ rfl rfl rfl rfl
      ?_ (List.forall_mem_singleton.mpr hlive)
    · exact fun _ => hfd
    · exact fun hge => absurd hge (by decide)
    · intro m hc
      cases hc
  | recordTid =>
    simp only [hpc] at hat
    refine h.keepSilent rfl ?_ le_rfl (fun _ => Or.inl) rfl rfl rfl
      (List.forall_mem_singleton.mpr hat.2)
    intro n _
    by_cases hn : n = s.datap
    · simp [hn]
    · simp [Function.update_of_ne hn]
  | insertHead =>
    simp only [hpc] at hat
    refine h.keepSilent rfl (fun _ _ => rfl) le_rfl ?_ rfl rfl rfl
      (List.forall_mem_singleton.mpr hat.2)
    intro n hn
    rcases List.mem_cons.mp hn with rfl | hn
    · exact Or.inr hat
    · exact Or.inl hn
  | loopTest =>
    cases hh : s.head with
    | nil | cons n rest =>
      refine h.keepQuiet rfl rfl rfl ?_ rfl rfl rfl (List.forall_mem_nil _)
      rw [hh]
  | takeHead =>
    simp only [hpc] at hr
    obtain ⟨n, hn⟩ := hr
    simp only [hn.head_eq]
    refine h.keepQuiet rfl rfl rfl ?_ rfl rfl rfl (List.forall_mem_nil _)
    rw [hn.head_eq]
  | testFd =>
    simp only [hpc] at hr
    have huses : ∀ n ∈ [s.datap], n ∉ logOf ServerEvent.frees os :=
      List.forall_mem_singleton.mpr (h.of_head hr.head_eq).2
    by_cases hfd : (s.node s.datap).clientSocketFd ≥ 0
    · simp only [if_pos hfd]
      exact h.keepQuiet rfl rfl rfl (List.suffix_refl _) rfl rfl rfl huses
    · simp only [if_neg hfd]
      exact h.keepQuiet rfl rfl rfl (List.suffix_refl _) rfl rfl rfl huses
  | join =>
    simp only [hpc] at hr
    -- a join started before is over, or main would be inside it
    have hnew : s.datap ∉ logOf ServerEvent.joinStarts os := by
      intro hj
      rcases hm.joins s.datap hj with hjoined | ⟨hinside, -⟩
      · exact hr.unjoined hjoined
      · rw [hpc] at hinside
        cases hinside
    simp only [hr.tid_eq]
    exact h.keepJoin rfl rfl rfl rfl rfl hnew
      (List.forall_mem_singleton.mpr (h.of_head hr.head_eq).2)
  | joining =>
    simp only [hpc] at hr
    simp only [hr.tid_eq]
    by_cases hend : s.thread s.datap = .ended
    · simp only [if_pos hend]
      exact h.moveJoined hend rfl rfl rfl rfl rfl (List.forall_mem_nil _)
    · simp only [if_neg hend]
      exact h.keepQuiet rfl rfl rfl (List.suffix_refl _) rfl rfl rfl (List.forall_mem_nil _)
  | removeHead =>
    simp only [hpc] at hat hr
    simp only [hr.1]
    exact h.keepQuiet rfl rfl rfl List.nil_suffix rfl rfl rfl (List.forall_mem_singleton.mpr hat.2)
  | freeNode =>
    simp only [hpc] at hat hr
    exact h.keepFree rfl rfl rfl hr.1 rfl rfl (by rw [hat.1]; decide) hat.2
      (List.forall_mem_singleton.mpr hat.2)

/-- And it leaves main where it should be. -/
theorem mainStep_phase (fd : ℕ) :
    MainPhase (mainStep s fd).1 (os ++ [.server (mainStep s fd).2 (mainUses s)]) := by
  have hat := hm.at_pc
  unfold ReapInv at hr
  unfold MainAt at hat
  unfold mainStep mainUses
  cases hpc : s.pc with
  | accept =>
    exact hm.next (by simp [hpc]) (by simp) rfl (fun _ => id) (Int.natCast_nonneg fd)
  | populate =>
    simp only [hpc] at hat
    have hfresh := h.fresh s.nextNode le_rfl
    refine hm.next (by simp [hpc]) (by simp) rfl (fun _ => id) ⟨hfresh, ?_, Nat.lt_succ_self _⟩
    simpa using hat
  | createThread =>
    simp only [hpc] at hat
    have hlive : s.datap ∉ logOf ServerEvent.frees os := h.unfreed (by omega)
    refine hm.next (by simp [hpc]) (by simp) rfl ?_ ⟨?_, ?_⟩
    · intro n hj
      -- the thread that is created has not been joined
      have hn : n ≠ s.datap := by
        rintro rfl
        rw [hj] at hat
        cases hat.1
      simp [Function.update_of_ne hn, hj]
    · simp [ThreadPhase.rank]
    · rw [logOf_quiet rfl]
      exact hlive
  | recordTid | countThread =>
    simp only [hpc] at hat
    refine hm.next (by simp [hpc]) (by simp) rfl (fun _ => id) ⟨hat.1, ?_⟩
    rw [logOf_quiet rfl]
    exact hat.2
  | loopTest =>
    cases hh : s.head with
    | nil | cons n rest => exact hm.next (by simp [hpc]) (by simp) rfl (fun _ => id) trivial
  | takeHead =>
    simp only [hpc] at hr
    obtain ⟨n, hn⟩ := hr
    simp only [hn.head_eq]
    exact hm.next (by simp [hpc]) (by simp) rfl (fun _ => id) trivial
  | testFd =>
    by_cases hfd : (s.node s.datap).clientSocketFd ≥ 0
    · simp only [if_pos hfd]
      exact hm.next (by simp [hpc]) (by simp) rfl (fun _ => id) trivial
    · simp only [if_neg hfd]
      exact hm.next (by simp [hpc]) (by simp) rfl (fun _ => id) trivial
  | join =>
    simp only [hpc] at hr
    simp only [hr.tid_eq]
    refine ⟨fun n hn => ?_, fun _ => ?_, trivial⟩
    · rw [logOf_concat] at hn
      rcases List.mem_append.mp hn with hn | hn
      · rcases hm.joins n hn with hjoined | ⟨hinside, -⟩
        · exact Or.inl hjoined
        · rw [hpc] at hinside
          cases hinside
      · exact Or.inr ⟨rfl, List.mem_singleton.mp hn⟩
    · rw [logOf_concat]
      exact List.mem_append_right _ List.mem_cons_self
  | joining =>
    simp only [hpc] at hr
    simp only [hr.tid_eq]
    by_cases hend : s.thread s.datap = .ended
    · simp only [if_pos hend]
      refine ⟨fun n hn => ?_, (fun hj => nomatch hj), ?_, ?_⟩
      · rw [logOf_quiet rfl] at hn
        left
        by_cases hn' : n = s.datap
        · simp [hn']
        · rcases hm.joins n hn with hjoined | ⟨-, hdatap⟩
          · simp [Function.update_of_ne hn', hjoined]
          · exact absurd hdatap hn'
      · simp
      · rw [logOf_quiet rfl]
        exact (h.of_head hr.head_eq).2
    · simp only [if_neg hend]
      refine ⟨?_, ?_, ?_⟩
      · rw [logOf_quiet rfl]
        exact hm.joins
      · rw [logOf_quiet rfl]
        exact hm.started
      · simp only [MainAt, hpc]
  | removeHead =>
    simp only [hpc] at hat hr
    simp only [hr.1]
    refine hm.next (by simp [hpc]) (by simp) rfl (fun _ => id) ⟨hat.1, ?_⟩
    rw [logOf_quiet rfl]
    exact hat.2
  | insertHead | freeNode | decrement =>
    exact hm.next (by simp [hpc]) (by simp) rfl (fun _ => id) trivial

end Main

/-! A step of a session thread. -/

/-- What `MainFrame` leaves out: a thread that is not there does nothing, and the others
only move on. -/
theorem threadStep_rank (s : ServerState) (n : ℕ) :
    (threadStep s n).1.nextNode = s.nextNode ∧
      (threadStep s n).1.clientSocketFd = s.clientSocketFd ∧
      ∀ m, (s.thread m).rank ≤ ((threadStep s n).1.thread m).rank ∧
        ((s.thread m).rank = 0 → ((threadStep s n).1.thread m).rank = 0 ∧
          ((threadStep s n).1.node m).clientSocketFd = (s.node m).clientSocketFd) := by
  have hupdate (p : ThreadPhase) (hle : (s.thread n).rank ≤ p.rank) (hpos : 0 < (s.thread n).rank)
      (m : ℕ) : (s.thread m).rank ≤ (Function.update s.thread n p m).rank ∧
        ((s.thread m).rank = 0 → (Function.update s.thread n p m).rank = 0) := by
    by_cases hm : m = n
    · subst hm
      rw [Function.update_self]
      exact ⟨hle, fun hzero => absurd hzero hpos.ne'⟩
    · rw [Function.update_of_ne hm]
      exact ⟨le_rfl, id⟩
  unfold threadStep
  cases hp : s.thread n with
  | working =>
    refine ⟨rfl, rfl, fun m => ?_⟩
    have hm := hupdate .socketClosed (by rw [hp]; decide) (by rw [hp]; decide) m
    exact ⟨hm.1, fun hzero => ⟨hm.2 hzero, rfl⟩⟩
  | socketClosed =>
    refine ⟨rfl, rfl, fun m => ?_⟩
    have hm := hupdate .fdReset (by rw [hp]; decide) (by rw [hp]; decide) m
    refine ⟨hm.1, fun hzero => ⟨hm.2 hzero, ?_⟩⟩
    have hne : m ≠ n := by
      rintro rfl
      rw [hp] at hzero
      cases hzero
    simp [Function.update_of_ne hne]
  | fdReset =>
    refine ⟨rfl, rfl, fun m => ?_⟩
    have hm := hupdate .ended (by rw [hp]; decide) (by rw [hp]; decide) m
    exact ⟨hm.1, fun hzero => ⟨hm.2 hzero, rfl⟩⟩
  | _ => exact ⟨rfl, rfl, fun m => ⟨le_rfl, fun hzero => ⟨hzero, rfl⟩⟩⟩

theorem threadStep_event (s : ServerState) (n : ℕ) :
    (threadStep s n).2.joinStarts = [] ∧ (threadStep s n).2.frees = [] := by
  unfold threadStep
  cases s.thread n <;> exact ⟨rfl, rfl⟩

section Thread

variable {s : ServerState} {os : List ShutdownEvent} (n : ℕ) {o : ShutdownEvent}
  (ho : o.event = (threadStep s n).2)

include ho

/-- A session thread neither joins nor frees. -/
theorem logOf_threadStep (os : List ShutdownEvent) :
    logOf ServerEvent.joinStarts (os ++ [o]) = logOf ServerEvent.joinStarts os ∧
      logOf ServerEvent.frees (os ++ [o]) = logOf ServerEvent.frees os := by
  constructor
  · exact logOf_quiet (by rw [ho]; exact (threadStep_event s n).1)
  · exact logOf_quiet (by rw [ho]; exact (threadStep_event s n).2)

theorem MainPhase.thread (h : MainPhase s os) :
    MainPhase (threadStep s n).1 (os ++ [o]) := by
  have hf := threadStep_frame s n
  obtain ⟨hnext, hfd, hrank⟩ := threadStep_rank s n
  obtain ⟨hjoins, hfrees⟩ := logOf_threadStep n ho os
  constructor
  · intro m hm
    rw [hjoins] at hm
    rw [hf.joined, hf.pc, hf.datap]
    exact h.joins m hm
  · intro hpc
    rw [hf.pc] at hpc
    rw [hjoins, hf.datap]
    exact h.started hpc
  · have hat := h.at_pc
    unfold MainAt at hat ⊢
    rw [hf.pc]
    cases hpc : s.pc with
    | populate =>
      simp only [hpc] at hat
      simp only [hfd]
      exact hat
    | createThread =>
      simp only [hpc] at hat
      obtain ⟨hzero, hnode⟩ := (hrank s.datap).2 hat.1
      simp only [hf.datap, hnext, hzero, hnode]
      exact ⟨trivial, hat.2⟩
    | recordTid | countThread | insertHead =>
      simp only [hpc] at hat
      simp only [hf.datap, hfrees]
      exact ⟨hat.1.trans (hrank s.datap).1, hat.2⟩
    | removeHead | freeNode =>
      simp only [hpc] at hat
      simp only [hf.datap, hfrees, hf.joined]
      exact hat
    | _ => trivial

end Thread

end ProvenAesd.Server
