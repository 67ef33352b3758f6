import ProvenAesd.SocketShutdownHandler

/-! What the handler repeats of main's work. It is one thing only that is done twice:
the join that main was inside of. -/
namespace ProvenAesd.Server
open Mealy

/-! The passes of the handler's loop. -/

def unfreed (s : ShutdownState) : List ℕ :=
  match s.handler with
  | some .freeNode => [s.server.datap]
  | _ => []

def leftOver (s : ShutdownState) : List ℕ :=
  match s.handler with
  | none => []
  | some _ => s.server.head

/-- The nodes on the list at the signal are removed from its front, each by the pass
that took it and each to be freed. -/
structure Passes (s : ShutdownState) (os : List ShutdownEvent) : Prop where
  takes : handlerLog ServerEvent.takes os = handlerLog ServerEvent.removes os ++ handlerPass s
  removes : handlerLog ServerEvent.removes os = handlerLog ServerEvent.frees os ++ unfreed s
  listed : listedOf os = handlerLog ServerEvent.removes os ++ leftOver s

structure PassStep (s t : ShutdownState) (o : ShutdownEvent) : Prop where
  takes : handlerPass s ++ o.handlerEvent.takes = o.handlerEvent.removes ++ handlerPass t
  removes : unfreed s ++ o.handlerEvent.removes = o.handlerEvent.frees ++ unfreed t
  listed : leftOver s ++ o.listed = o.handlerEvent.removes ++ leftOver t

theorem Passes.concat {s t : ShutdownState} {os : List ShutdownEvent} {o : ShutdownEvent}
    (h : Passes s os) (hs : PassStep s t o) : Passes t (os ++ [o]) := by
  constructor
  · rw [handlerLog_concat, handlerLog_concat, h.takes, List.append_assoc, hs.takes,
      List.append_assoc]
  · rw [handlerLog_concat, handlerLog_concat, List.append_assoc, ← hs.removes, h.removes,
      List.append_assoc]
  · rw [listedOf_concat, handlerLog_concat, h.listed, List.append_assoc, hs.listed,
      List.append_assoc]

theorem handlerStep_passes {s : ServerState} {os : List ShutdownEvent} {pc : HandlerPc}
    (hat : HandlerAt s os pc) : PassStep ⟨s, some pc⟩ (handlerStep s pc).1 (handlerStep s pc).2 := by
  cases pc with
  | testCount =>
    simp only [handlerStep]
    split <;> constructor <;> simp [handlerPass, unfreed, leftOver, ShutdownEvent.handlerEvent,
      ShutdownEvent.listed, ServerEvent.takes, ServerEvent.removes, ServerEvent.frees]
  | loopTest =>
    simp only [handlerStep]
    split <;> constructor <;> simp [handlerPass, unfreed, leftOver, ShutdownEvent.handlerEvent,
      ShutdownEvent.listed, ServerEvent.takes, ServerEvent.removes, ServerEvent.frees]
  | takeHead =>
    obtain ⟨n, hn⟩ := hat
    simp only [handlerStep, hn.head_eq]
    constructor <;> simp [handlerPass, unfreed, leftOver, ShutdownEvent.handlerEvent,
      ShutdownEvent.listed, ServerEvent.takes, ServerEvent.removes, ServerEvent.frees, hn.head_eq]
  | removeHead =>
    have hhead : s.head = [s.datap] := hat.1
    simp only [handlerStep, hhead]
    constructor <;> simp [handlerPass, unfreed, leftOver, ShutdownEvent.handlerEvent,
      ShutdownEvent.listed, ServerEvent.takes, ServerEvent.removes, ServerEvent.frees, hhead]
  | testFd | joining | testSocket =>
    simp only [handlerStep]
    split <;> constructor <;> simp [handlerPass, unfreed, leftOver, ShutdownEvent.handlerEvent,
      ShutdownEvent.listed, ServerEvent.takes, ServerEvent.removes, ServerEvent.frees]
  | join | countDown | closeSocket | freeNode | cleanUp | exited =>
    constructor <;> simp [handlerStep, handlerPass, unfreed, leftOver, ShutdownEvent.handlerEvent,
      ShutdownEvent.listed, ServerEvent.takes, ServerEvent.removes, ServerEvent.frees]

/-- A step of anybody but the handler. -/
theorem PassStep.other {s t : ShutdownState} {o : ShutdownEvent} (hhandler : t.handler = s.handler)
    (hdatap : s.handler ≠ none → t.server.datap = s.server.datap)
    (hhead : s.handler ≠ none → t.server.head = s.server.head) (ho : o.handlerEvent = .quiet)
    (hlisted : o.listed = []) : PassStep s t o := by
  have hquiet (p : ServerEvent → List ℕ) (hp : p .quiet = []) : p o.handlerEvent = [] := by
    rw [ho, hp]
  have hpass : handlerPass t = handlerPass s ∧ unfreed t = unfreed s ∧ leftOver t = leftOver s := by
    unfold handlerPass unfreed leftOver
    rw [hhandler]
    cases hh : s.handler with
    | none => exact ⟨rfl, rfl, rfl⟩
    | some pc =>
      have hne : s.handler ≠ none := by rw [hh]; exact Option.some_ne_none pc
      rw [hdatap hne, hhead hne]
      exact ⟨rfl, rfl, rfl⟩
  constructor
  · rw [hquiet ServerEvent.takes rfl, hquiet ServerEvent.removes rfl, hpass.1, List.append_nil,
      List.nil_append]
  · rw [hquiet ServerEvent.removes rfl, hquiet ServerEvent.frees rfl, hpass.2.1, List.append_nil,
      List.nil_append]
  · rw [hlisted, hquiet ServerEvent.removes rfl, hpass.2.2, List.append_nil, List.nil_append]

/-! All of it together. -/

/-- Main's phase, or the handler's once the signal has arrived. -/
def PhaseInv (s : ShutdownState) (os : List ShutdownEvent) : Prop :=
  match s.handler with
  | none => ReapInv s.server ∧ MainPhase s.server os
  | some pc => HandlerPhase pc s.server os

structure ShutdownInv (s : ShutdownState) (os : List ShutdownEvent) : Prop where
  recorded : Recorded s.server os
  phase : PhaseInv s os
  passes : Passes s os

theorem shutdownInit_inv : ShutdownInv shutdownInit [] := by
  refine ⟨?_, ⟨⟨rfl, rfl⟩, ?_⟩, rfl, rfl, rfl⟩
  · refine ⟨?_, ?_, fun _ _ => rfl, List.nodup_nil, List.nodup_nil, trivial, List.nodup_nil, ?_, ?_, ?_⟩
    · intro n hlow
      exact absurd hlow (Nat.not_succ_le_zero 0)
    · intro n hrank
      exact absurd hrank (Nat.not_succ_le_zero 2)
    · intro n hn
      cases hn
    · intro n hn
      cases hn
    · intro n hn
      cases hn
  · refine ⟨fun n hn => ?_, fun hpc => ?_, trivial⟩
    · cases hn
    · cases hpc

section Run

variable {s : ShutdownState} {os : List ShutdownEvent} (h : ShutdownInv s os)

include h

theorem ShutdownInv.thread (n : ℕ) :
    ShutdownInv ⟨(threadStep s.server n).1, s.handler⟩
      (os ++ [.server (threadStep s.server n).2 (threadUses s.server n)]) := by
  have hf := threadStep_frame s.server n
  refine ⟨h.recorded.concat (threadStep_allowed h.recorded n), ?_,
    h.passes.concat (.other rfl (fun _ => hf.datap) (fun _ => hf.head) rfl rfl)⟩
  have hphase := h.phase
  unfold PhaseInv at hphase ⊢
  cases hh : s.handler with
  | none =>
    simp only [hh] at hphase
    exact ⟨hf.reapInv hphase.1, hphase.2.thread n rfl⟩
  | some pc =>
    simp only [hh] at hphase
    exact hphase.thread n rfl

/-- A step that does nothing, as the thread that is created next does nothing yet. -/
theorem ShutdownInv.idle : ShutdownInv s (os ++ [.server .quiet []]) := by
  have hnot : s.server.thread s.server.nextNode = .notCreated := by
    have hzero := h.recorded.fresh s.server.nextNode le_rfl
    cases hp : s.server.thread s.server.nextNode with
    | notCreated => rfl
    | _ =>
      rw [hp] at hzero
      cases hzero
  have hstep : threadStep s.server s.server.nextNode = (s.server, .quiet) := by
    simp only [threadStep, hnot]
  have huses : threadUses s.server s.server.nextNode = [] := by
    simp only [threadUses, hnot]
  have hthread := h.thread s.server.nextNode
  rw [hstep, huses] at hthread
  exact hthread

/-- What one step preserves, if it does not start a join that main is inside of. -/
theorem ShutdownInv.step (step : ShutdownStep) (halone : JoinsAlone s step) :
    ShutdownInv (shutdownStep s step).1 (os ++ [(shutdownStep s step).2]) := by
  have hphase := h.phase
  unfold PhaseInv at hphase
  cases step with
  | main fd =>
    cases hh : s.handler with
    | none =>
      simp only [hh] at hphase
      obtain ⟨hr, hm⟩ := hphase
      simp only [shutdownStep, hh]
      -- main is in its loop, and the handler has not been entered
      refine ⟨h.recorded.concat (mainStep_allowed h.recorded hr hm fd),
        ⟨mainStep_reapInv hr fd, mainStep_phase h.recorded hr hm fd⟩, h.passes.concat ?_⟩
      exact .other hh.symm (absurd hh) (absurd hh) rfl rfl
    | some pc =>
      simp only [hh] at hphase
      -- the main thread is in the handler: its join must not meet the one it interrupted
      have hstart : pc = .join → s.server.pc ≠ .joining := by
        rintro rfl
        exact halone hh
      have hallowed := handlerStep_allowed h.recorded hphase hstart
      obtain ⟨pc', hpc', hnext⟩ := handlerStep_phase h.recorded hphase
      have hpass := handlerStep_passes hphase.at_pc
      rw [← hh] at hpass
      simp only [shutdownStep, hh]
      refine ⟨h.recorded.concat hallowed, ?_, h.passes.concat hpass⟩
      simp only [PhaseInv, hpc']
      exact hnext
  | thread n =>
    by_cases hexit : s.handler = some .exited
    · simp only [shutdownStep, if_pos hexit]
      exact h.idle
    · simp only [shutdownStep, if_neg hexit]
      exact h.thread n
  -- the handler takes over the list as it is
  | signal =>
    cases hh : s.handler with
    | none =>
      simp only [hh] at hphase
      obtain ⟨hr, hm⟩ := hphase
      simp only [shutdownStep, hh]
      have hallowed : Allowed s.server s.server os (.signalled s.server.head) :=
        h.recorded.keepQuiet rfl rfl rfl (List.suffix_refl _) rfl rfl rfl (List.forall_mem_nil _)
      refine ⟨h.recorded.concat hallowed, handlerPhase_of_signal hr hm _ rfl, h.passes.concat ?_⟩
      constructor <;> simp [handlerPass, unfreed, leftOver, hh, ShutdownEvent.handlerEvent,
        ShutdownEvent.listed, ServerEvent.takes, ServerEvent.removes, ServerEvent.frees]
    | some pc =>
      simp only [shutdownStep, hh]
      exact h.idle

theorem ShutdownInv.clean : CleanShutdown s os := by
  refine ⟨h.recorded.joins, h.recorded.frees, h.recorded.uses, h.recorded.closes, h.passes.takes,
    fun hexit => ?_⟩
  have hphase := h.phase
  simp only [PhaseInv, hexit] at hphase
  have hhead : s.server.head = [] := hphase.at_pc
  have hremoves := h.passes.removes
  have hlisted := h.passes.listed
  simp only [unfreed, hexit, List.append_nil] at hremoves
  simp only [leftOver, hexit, hhead, List.append_nil] at hlisted
  exact ⟨hhead, hremoves.symm.trans hlisted.symm⟩

/-- The second join of the thread that main is waiting for. -/
theorem ShutdownInv.joins_twice {step : ShutdownStep} (hnot : ¬JoinsAlone s step) :
    ¬(logOf ServerEvent.joinStarts (os ++ [(shutdownStep s step).2])).Nodup := by
  cases step with
  | thread n => exact absurd trivial hnot
  | signal => exact absurd trivial hnot
  | main fd =>
    obtain ⟨hjoin, hinside⟩ : s.handler = some .join ∧ s.server.pc = .joining := by
      simpa [JoinsAlone] using hnot
    have hphase := h.phase
    simp only [PhaseInv, hjoin] at hphase
    obtain ⟨hn, hunjoined⟩ : Remaining s.server os s.server.datap ∧
      s.server.thread s.server.datap ≠ .joined := hphase.at_pc
    have hevent : (shutdownStep s (.main fd)).2.event = .joinStarted s.server.datap := by
      simp only [shutdownStep, hjoin, handlerStep, ShutdownEvent.event, hn.tid_eq hunjoined]
    rw [logOf_concat, hevent]
    intro hnodup
    exact (List.nodup_append'.mp hnodup).2.2 (hn.started hinside) List.mem_cons_self

end Run

/-- The shutdown cleans up once in the runs, and only in the runs, in which the handler
starts no join while main is inside `pthread_join`. -/
theorem clean_shutdown_iff (steps : List ShutdownStep) :
    CleanShutdown (shutdown.final shutdownInit steps) (shutdown.outputs shutdownInit steps) ↔
      shutdown.Guarded JoinsAlone shutdownInit steps := by
  constructor
  · intro hclean
    -- where the condition fails first, a thread is joined twice
    refine (Machine.guarded_iff_record
      (P := fun os => (logOf ServerEvent.joinStarts os).Nodup) shutdownInit_inv ?_ ?_ ?_ ?_
      steps).mpr hclean.joins
    · exact fun _ _ step h halone => h.step step halone
    · exact fun _ _ h => h.recorded.joins
    · exact fun _ _ _ h hnot => h.joins_twice hnot
    · intro os o hnodup
      rw [logOf_concat] at hnodup
      exact (List.nodup_append'.mp hnodup).1
  · intro hg
    have hinv : ShutdownInv (shutdown.final shutdownInit steps)
        (shutdown.outputs shutdownInit steps) :=
      hg.history (fun s _ os => ShutdownInv s os) shutdownInit_inv
        fun _ _ _ step h halone => h.step step halone
    exact hinv.clean

/-- A signal while main is inside `pthread_join` and the session at work: the handler
joins the same thread again. -/
theorem signal_joins_twice :
    let steps := List.replicate 10 (.main 4) ++ .signal :: List.replicate 5 (.main 4)
    let s := shutdown.final shutdownInit steps
    s.handler = some .joining ∧ s.server.pc = .joining ∧
      logOf ServerEvent.joinStarts (shutdown.outputs shutdownInit steps) = [1, 1] ∧
      ¬CleanShutdown s (shutdown.outputs shutdownInit steps) := by
  intro steps s
  have hjoins : logOf ServerEvent.joinStarts (shutdown.outputs shutdownInit steps) = [1, 1] := by
    decide
  refine ⟨by decide, by decide, hjoins, fun hclean => ?_⟩
  have hnodup := hclean.joins
  rw [hjoins] at hnodup
  exact absurd hnodup (by decide)

end ProvenAesd.Server
