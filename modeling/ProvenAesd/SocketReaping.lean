import ProvenAesd.SocketMainLoop

/-! Reaping gets stuck when, and only when, main looks at a node whose thread has
already reset its descriptor. -/
namespace ProvenAesd.Server
open Mealy

/-- The list holds the node `n` alone, whose thread nobody has joined. -/
structure Listed (s : ServerState) (n : ℕ) : Prop where
  head_eq : s.head = [n]
  count_eq : s.threadCount = 1
  tid_eq : (s.node n).tid = n
  unjoined : s.thread n ≠ .joined

structure Idle (s : ServerState) : Prop where
  head_eq : s.head = []
  count_eq : s.threadCount = 0

/-- The list and the counter at each statement of main. -/
def ReapInv (s : ServerState) : Prop :=
  match s.pc with
  | .accept | .populate | .createThread => Idle s
  | .recordTid => Idle s ∧ s.tid = s.datap ∧ s.thread s.datap ≠ .joined
  | .countThread => Idle s ∧ (s.node s.datap).tid = s.datap ∧ s.thread s.datap ≠ .joined
  | .insertHead =>
    s.head = [] ∧ s.threadCount = 1 ∧ (s.node s.datap).tid = s.datap ∧ s.thread s.datap ≠ .joined
  | .loopTest => Idle s ∨ ∃ n, Listed s n
  | .takeHead => ∃ n, Listed s n
  | .testFd | .join | .joining => Listed s s.datap
  | .removeHead => s.head = [s.datap] ∧ s.threadCount = 1
  | .freeNode | .decrement => s.head = [] ∧ s.threadCount = 1

/-- What a step of a thread leaves as main has it. -/
structure MainFrame (s t : ServerState) : Prop where
  pc : t.pc = s.pc
  head : t.head = s.head
  datap : t.datap = s.datap
  tid : t.tid = s.tid
  count : t.threadCount = s.threadCount
  node_tid : ∀ n, (t.node n).tid = (s.node n).tid
  joined : ∀ n, t.thread n = .joined ↔ s.thread n = .joined
  ended : ∀ n, s.thread n = .ended → t.thread n = .ended

theorem threadStep_frame (s : ServerState) (n : ℕ) : MainFrame s (threadStep s n).1 := by
  -- a step of a live thread neither joins it nor undoes its end
  have hkept (phase phase' : ThreadPhase) (hphase : s.thread n = phase) (hj : phase ≠ .joined)
      (hj' : phase' ≠ .joined) (he : phase ≠ .ended) (m : ℕ) :
      (Function.update s.thread n phase' m = .joined ↔ s.thread m = .joined) ∧
        (s.thread m = .ended → Function.update s.thread n phase' m = .ended) := by
    by_cases hm : m = n
    · subst hm
      rw [Function.update_self, hphase]
      exact ⟨iff_of_false hj' hj, fun h => absurd h he⟩
    · rw [Function.update_of_ne hm]
      exact ⟨Iff.rfl, id⟩
  unfold threadStep
  cases hp : s.thread n with
  | working =>
    have h := hkept _ .socketClosed hp (by decide) (by decide) (by decide)
    exact ⟨rfl, rfl, rfl, rfl, rfl, fun _ => rfl, fun m => (h m).1, fun m => (h m).2⟩
  | socketClosed =>
    have h := hkept _ .fdReset hp (by decide) (by decide) (by decide)
    refine ⟨rfl, rfl, rfl, rfl, rfl, fun m => ?_, fun m => (h m).1, fun m => (h m).2⟩
    by_cases hm : m = n
    · simp [hm]
    · simp [Function.update_of_ne hm]
  | fdReset =>
    have h := hkept _ .ended hp (by decide) (by decide) (by decide)
    exact ⟨rfl, rfl, rfl, rfl, rfl, fun _ => rfl, fun m => (h m).1, fun m => (h m).2⟩
  | _ => exact ⟨rfl, rfl, rfl, rfl, rfl, fun _ => rfl, fun _ => Iff.rfl, fun _ => id⟩

section Frame

variable {s t : ServerState} (hf : MainFrame s t)

include hf

theorem MainFrame.listed {n : ℕ} (h : Listed s n) : Listed t n := by
  refine ⟨hf.head.trans h.head_eq, hf.count.trans h.count_eq, (hf.node_tid n).trans h.tid_eq, ?_⟩
  intro hj
  apply h.unjoined
  exact (hf.joined n).mp hj

theorem MainFrame.idle (h : Idle s) : Idle t :=
  ⟨hf.head.trans h.head_eq, hf.count.trans h.count_eq⟩

theorem MainFrame.reapInv (h : ReapInv s) : ReapInv t := by
  have hunjoined (n : ℕ) (hn : s.thread n ≠ .joined) : t.thread n ≠ .joined :=
    fun hj => hn ((hf.joined n).mp hj)
  unfold ReapInv at h ⊢
  rw [hf.pc]
  cases hpc : s.pc with
  | accept | populate | createThread =>
    simp only [hpc] at h
    exact hf.idle h
  | recordTid =>
    simp only [hpc] at h
    obtain ⟨hidle, htid, hj⟩ := h
    refine ⟨hf.idle hidle, ?_, ?_⟩
    · rw [hf.tid, hf.datap, htid]
    · rw [hf.datap]
      exact hunjoined _ hj
  | countThread =>
    simp only [hpc] at h
    obtain ⟨hidle, htid, hj⟩ := h
    refine ⟨hf.idle hidle, ?_, ?_⟩
    · rw [hf.node_tid, hf.datap, htid]
    · rw [hf.datap]
      exact hunjoined _ hj
  | insertHead =>
    simp only [hpc] at h
    obtain ⟨hhead, hcount, htid, hj⟩ := h
    refine ⟨hf.head.trans hhead, hf.count.trans hcount, ?_, ?_⟩
    · rw [hf.node_tid, hf.datap, htid]
    · rw [hf.datap]
      exact hunjoined _ hj
  | loopTest =>
    simp only [hpc] at h
    rcases h with hidle | ⟨n, hn⟩
    · exact Or.inl (hf.idle hidle)
    · exact Or.inr ⟨n, hf.listed hn⟩
  | takeHead =>
    simp only [hpc] at h
    obtain ⟨n, hn⟩ := h
    exact ⟨n, hf.listed hn⟩
  | testFd | join | joining =>
    simp only [hpc] at h
    simp only [hf.datap]
    exact hf.listed h
  | removeHead =>
    simp only [hpc] at h
    simp only [hf.head, hf.datap, hf.count]
    exact h
  | freeNode | decrement =>
    simp only [hpc] at h
    exact ⟨hf.head.trans h.1, hf.count.trans h.2⟩

end Frame

/-- What main does at each statement, given the invariant. -/
theorem mainStep_reapInv {s : ServerState} (h : ReapInv s) (fd : ℕ) : ReapInv (mainStep s fd).1 := by
  unfold ReapInv at h
  unfold mainStep
  cases hpc : s.pc with
  | accept | populate =>
    simp only [hpc] at h
    exact ⟨h.head_eq, h.count_eq⟩
  | createThread =>
    simp only [hpc] at h
    -- the node gets its thread id only when `pthread_create` has returned
    refine ⟨⟨h.head_eq, h.count_eq⟩, rfl, ?_⟩
    simp
  | recordTid =>
    simp only [hpc] at h
    refine ⟨⟨h.1.head_eq, h.1.count_eq⟩, ?_, h.2.2⟩
    simp [h.2.1]
  | countThread =>
    simp only [hpc] at h
    refine ⟨h.1.head_eq, ?_, h.2⟩
    simp [h.1.count_eq]
  | insertHead =>
    simp only [hpc] at h
    refine Or.inr ⟨s.datap, ?_, h.2.1, h.2.2.1, h.2.2.2⟩
    simp [h.1]
  | loopTest =>
    simp only [hpc] at h
    rcases h with hidle | ⟨n, hn⟩
    · simp only [hidle.head_eq]
      exact ⟨rfl, hidle.count_eq⟩
    · simp only [hn.head_eq]
      exact ⟨n, rfl, hn.count_eq, hn.tid_eq, hn.unjoined⟩
  | takeHead =>
    simp only [hpc] at h
    obtain ⟨n, hn⟩ := h
    simp only [hn.head_eq]
    exact ⟨rfl, hn.count_eq, hn.tid_eq, hn.unjoined⟩
  | testFd =>
    simp only [hpc] at h
    by_cases hfd : (s.node s.datap).clientSocketFd ≥ 0
    · simp only [if_pos hfd]
      exact ⟨h.head_eq, h.count_eq, h.tid_eq, h.unjoined⟩
    -- the session has reset its descriptor: main goes on without a join
    · simp only [if_neg hfd]
      exact Or.inr ⟨s.datap, h.head_eq, h.count_eq, h.tid_eq, h.unjoined⟩
  | join =>
    simp only [hpc] at h
    exact ⟨h.head_eq, h.count_eq, h.tid_eq, h.unjoined⟩
  | joining =>
    simp only [hpc] at h
    by_cases hend : s.thread (s.node s.datap).tid = .ended
    · simp only [if_pos hend]
      exact ⟨h.head_eq, h.count_eq⟩
    -- `pthread_join` waits
    · simp only [if_neg hend, ReapInv, hpc]
      exact h
  | removeHead =>
    simp only [hpc] at h
    simp only [h.1]
    exact ⟨rfl, h.2⟩
  | freeNode =>
    simp only [hpc] at h
    exact h
  | decrement =>
    simp only [hpc] at h
    refine Or.inl ⟨h.1, ?_⟩
    simp [h.2]

/-! Every pass through the loop body is accounted for by its events. -/

def tookOf (es : List ServerEvent) : List ℕ :=
  es.filterMap fun | .took n => some n | _ => none

def joinedOf (es : List ServerEvent) : List ℕ :=
  es.filterMap fun | .joined n => some n | _ => none

def removedOf (es : List ServerEvent) : List ℕ :=
  es.filterMap fun | .removed n => some n | _ => none

def inPass (s : ServerState) : List ℕ :=
  match s.pc with
  | .testFd | .join | .joining | .removeHead => [s.datap]
  | _ => []

def unremoved (s : ServerState) : List ℕ :=
  match s.pc with
  | .removeHead => [s.datap]
  | _ => []

/-- Main looks at a node before the node's thread has reset its descriptor. -/
def HeadOpen (s : ServerState) : ServerStep → Prop
  | .main _ => s.pc = .testFd → (s.node s.datap).clientSocketFd ≥ 0
  | .thread _ => True

instance (s : ServerState) (step : ServerStep) : Decidable (HeadOpen s step) :=
  match step with
  | .main _ => inferInstanceAs (Decidable (_ → _))
  | .thread _ => inferInstanceAs (Decidable True)

/-- A step takes a node, joins the node taken, or removes the node joined. -/
structure Balanced (s t : ServerState) (e : ServerEvent) : Prop where
  took : inPass s ++ tookOf [e] = removedOf [e] ++ inPass t
  joined : unremoved s ++ joinedOf [e] = removedOf [e] ++ unremoved t
  not_passedOver : ∀ n, e ≠ .passedOver n

theorem mainStep_balanced {s : ServerState} (h : ReapInv s) (fd : ℕ)
    (hopen : s.pc = .testFd → (s.node s.datap).clientSocketFd ≥ 0) :
    Balanced s (mainStep s fd).1 (mainStep s fd).2 := by
  unfold ReapInv at h
  unfold mainStep
  cases hpc : s.pc with
  | loopTest =>
    cases s.head with
    | nil => constructor <;> simp [inPass, unremoved, hpc, tookOf, joinedOf, removedOf]
    | cons n rest => constructor <;> simp [inPass, unremoved, hpc, tookOf, joinedOf, removedOf]
  | takeHead =>
    simp only [hpc] at h
    obtain ⟨n, hn⟩ := h
    simp only [hn.head_eq]
    constructor <;> simp [inPass, unremoved, hpc, tookOf, joinedOf, removedOf]
  | testFd =>
    simp only [if_pos (hopen hpc)]
    constructor <;> simp [inPass, unremoved, hpc, tookOf, joinedOf, removedOf]
  | joining =>
    simp only [hpc] at h
    simp only [h.tid_eq]
    by_cases hend : s.thread s.datap = .ended
    · simp only [if_pos hend]
      constructor <;> simp [inPass, unremoved, hpc, tookOf, joinedOf, removedOf]
    · simp only [if_neg hend]
      constructor <;> simp [inPass, unremoved, hpc, tookOf, joinedOf, removedOf]
  | removeHead =>
    simp only [hpc] at h
    simp only [h.1]
    constructor <;> simp [inPass, unremoved, hpc, tookOf, joinedOf, removedOf]
  | _ => constructor <;> simp [inPass, unremoved, hpc, tookOf, joinedOf, removedOf]

theorem threadStep_balanced (s : ServerState) (n : ℕ) :
    Balanced s (threadStep s n).1 (threadStep s n).2 := by
  have hf := threadStep_frame s n
  have hpass : inPass (threadStep s n).1 = inPass s := by
    simp only [inPass, hf.pc, hf.datap]
  have hrem : unremoved (threadStep s n).1 = unremoved s := by
    simp only [unremoved, hf.pc, hf.datap]
  have hevent : (threadStep s n).2 = .quiet ∨ (threadStep s n).2 = .closedSocket n := by
    unfold threadStep
    cases s.thread n <;> simp
  rcases hevent with he | he <;> rw [he] <;> constructor <;>
    simp [hpass, hrem, tookOf, joinedOf, removedOf]

/-- The state of a run against its events: every pass that is over has joined
and removed the node it took. -/
structure Reaped (s : ServerState) (es : List ServerEvent) : Prop where
  inv : ReapInv s
  took_eq : tookOf es = removedOf es ++ inPass s
  joined_eq : joinedOf es = removedOf es ++ unremoved s
  not_passedOver : ∀ n, .passedOver n ∉ es

theorem Reaped.concat {s t : ServerState} {es : List ServerEvent} {e : ServerEvent}
    (h : Reaped s es) (hinv : ReapInv t) (hb : Balanced s t e) : Reaped t (es ++ [e]) := by
  refine ⟨hinv, ?_, ?_, fun n hn => ?_⟩
  · calc
      tookOf (es ++ [e]) = removedOf es ++ inPass s ++ tookOf [e] := by
        rw [tookOf, List.filterMap_append, ← tookOf, h.took_eq, ← tookOf]
      _ = removedOf (es ++ [e]) ++ inPass t := by
        rw [List.append_assoc, hb.took, ← List.append_assoc, removedOf, removedOf,
          ← List.filterMap_append, ← removedOf]
  · calc
      joinedOf (es ++ [e]) = removedOf es ++ unremoved s ++ joinedOf [e] := by
        rw [joinedOf, List.filterMap_append, ← joinedOf, h.joined_eq, ← joinedOf]
      _ = removedOf (es ++ [e]) ++ unremoved t := by
        rw [List.append_assoc, hb.joined, ← List.append_assoc, removedOf, removedOf,
          ← List.filterMap_append, ← removedOf]
  · rcases List.mem_append.mp hn with hes | he
    · exact h.not_passedOver n hes
    · exact hb.not_passedOver n (List.mem_singleton.mp he).symm

theorem reapInv_step {s : ServerState} (h : ReapInv s) (step : ServerStep) :
    ReapInv (server.step s step).1 := by
  cases step with
  | main fd => exact mainStep_reapInv h fd
  | thread n => exact (threadStep_frame s n).reapInv h

theorem reaped_run {steps : List ServerStep} (h : server.Guarded HeadOpen serverInit steps) :
    Reaped (server.final serverInit steps) (server.outputs serverInit steps) := by
  apply h.history fun s _ es => Reaped s es
  · exact ⟨⟨rfl, rfl⟩, rfl, rfl, fun _ => List.not_mem_nil⟩
  · intro s _ es step hr hopen
    apply hr.concat (reapInv_step hr.inv step)
    cases step with
    | main fd => exact mainStep_balanced hr.inv fd hopen
    | thread n => exact threadStep_balanced s n

/-! Once the listed threads have ended, main counts down to `accept`. -/

def InLoop (s : ServerState) : Prop :=
  match s.pc with
  | .loopTest | .takeHead | .testFd | .join | .joining | .removeHead | .freeNode | .decrement => True
  | _ => False

/-- Main's steps to `accept` when no join has to wait. -/
def stepsLeft (s : ServerState) : ℕ :=
  match s.pc with
  | .loopTest => 10*s.head.length+1
  | .takeHead => 10*s.head.length
  | .testFd => 9
  | .join => 8
  | .joining => 7
  | .removeHead => 6
  | .freeNode => 3
  | .decrement => 2
  | _ => 0

def Settled (s : ServerState) : Prop :=
  ∀ n ∈ s.head, s.thread n = .ended ∨ s.thread n = .joined

def mainSteps (steps : List ServerStep) : ℕ :=
  steps.countP fun | .main _ => true | .thread _ => false

theorem stepsLeft_pos {s : ServerState} (h : ReapInv s) (hloop : InLoop s) : 0 < stepsLeft s := by
  unfold ReapInv at h
  unfold InLoop at hloop
  unfold stepsLeft
  cases hpc : s.pc with
  | takeHead =>
    simp only [hpc] at h
    obtain ⟨n, hn⟩ := h
    simp [hn.head_eq]
  | _ => simp [hpc] at hloop ⊢

theorem stepsLeft_le {s : ServerState} (h : ReapInv s) : stepsLeft s ≤ 11 := by
  unfold ReapInv at h
  unfold stepsLeft
  cases hpc : s.pc with
  | loopTest =>
    simp only [hpc] at h
    rcases h with hidle | ⟨n, hn⟩
    · simp [hidle.head_eq]
    · simp [hn.head_eq]
  | takeHead =>
    simp only [hpc] at h
    obtain ⟨n, hn⟩ := h
    simp [hn.head_eq]
  | _ => simp

/-- With no thread to wait for, each step of main in the loop is progress. -/
theorem mainStep_countdown {s : ServerState} (h : ReapInv s) (hloop : InLoop s)
    (hset : Settled s) (fd : ℕ) (hopen : s.pc = .testFd → (s.node s.datap).clientSocketFd ≥ 0) :
    (mainStep s fd).1.pc = .accept ∨
      (InLoop (mainStep s fd).1 ∧ Settled (mainStep s fd).1 ∧
        stepsLeft (mainStep s fd).1 < stepsLeft s) := by
  unfold ReapInv at h
  unfold InLoop at hloop
  unfold mainStep
  cases hpc : s.pc with
  | loopTest =>
    simp only [hpc] at h
    rcases h with hidle | ⟨n, hn⟩
    · simp only [hidle.head_eq]
      exact Or.inl trivial
    · right
      refine ⟨?_, ?_, ?_⟩ <;> simp only [hn.head_eq]
      · trivial
      · intro m hm
        apply hset
        rw [hn.head_eq]
        exact hm
      · simp [stepsLeft, hpc, hn.head_eq]
  | takeHead =>
    simp only [hpc] at h
    obtain ⟨n, hn⟩ := h
    right
    refine ⟨?_, ?_, ?_⟩ <;> simp only [hn.head_eq]
    · trivial
    · intro m hm
      apply hset
      rw [hn.head_eq]
      exact hm
    · simp [stepsLeft, hpc, hn.head_eq]
  | testFd =>
    simp only [if_pos (hopen hpc)]
    refine Or.inr ⟨trivial, hset, ?_⟩
    simp [stepsLeft, hpc]
  | join =>
    refine Or.inr ⟨trivial, hset, ?_⟩
    simp [stepsLeft, hpc]
  | joining =>
    -- the join does not wait, since the listed thread has ended
    simp only [hpc] at h
    have hmem : s.datap ∈ s.head := by simp [h.head_eq]
    have hended : s.thread s.datap = .ended := (hset _ hmem).resolve_right h.unjoined
    simp only [h.tid_eq, if_pos hended]
    refine Or.inr ⟨trivial, fun n hn => ?_, ?_⟩
    · have hn' : n = s.datap := by simpa [h.head_eq] using hn
      simp [hn']
    · simp [stepsLeft, hpc]
  | removeHead =>
    simp only [hpc] at h
    simp only [h.1]
    refine Or.inr ⟨trivial, fun n hn => absurd hn List.not_mem_nil, ?_⟩
    simp [stepsLeft, hpc]
  | freeNode =>
    refine Or.inr ⟨trivial, hset, ?_⟩
    simp [stepsLeft, hpc]
  | decrement =>
    simp only [hpc] at h
    refine Or.inr ⟨trivial, hset, ?_⟩
    simp [stepsLeft, hpc, h.1]
  | _ => simp [hpc] at hloop

theorem back_to_accept (more : List ServerStep) :
    ∀ s, ReapInv s → InLoop s → Settled s → server.Guarded HeadOpen s more →
      stepsLeft s ≤ mainSteps more →
      ∃ before, before <+: more ∧ (server.final s before).pc = .accept := by
  induction more with
  | nil =>
    intro s h hloop _ _ hsteps
    have hpos := stepsLeft_pos h hloop
    have hzero : mainSteps [] = 0 := rfl
    omega
  | cons step more ih =>
    intro s h hloop hset hg hsteps
    cases step with
    | main fd =>
      have hcount : mainSteps (.main fd :: more) = mainSteps more+1 := by simp [mainSteps]
      rcases mainStep_countdown h hloop hset fd hg.1 with hacc | ⟨hloop', hset', hlt⟩
      · exact ⟨[.main fd], by simp, hacc⟩
      · obtain ⟨before, hpre, hpc⟩ := ih (mainStep s fd).1 (mainStep_reapInv h fd) hloop' hset' hg.2
          (by omega)
        exact ⟨.main fd :: before, List.cons_prefix_cons.mpr ⟨rfl, hpre⟩, hpc⟩
    | thread n =>
      -- a step of a thread leaves the count as it is
      have hf := threadStep_frame s n
      have hcount : mainSteps (.thread n :: more) = mainSteps more := by simp [mainSteps]
      have hloop' : InLoop (threadStep s n).1 := by
        simp only [InLoop, hf.pc]
        exact hloop
      have hset' : Settled (threadStep s n).1 := by
        intro m hm
        rw [hf.head] at hm
        rcases hset m hm with he | hj
        · exact Or.inl (hf.ended m he)
        · exact Or.inr ((hf.joined m).mpr hj)
      have hleft : stepsLeft (threadStep s n).1 = stepsLeft s := by
        simp only [stepsLeft, hf.pc, hf.head]
      obtain ⟨before, hpre, hpc⟩ := ih (threadStep s n).1 (hf.reapInv h) hloop' hset' hg.2
        (by omega)
      exact ⟨.thread n :: before, List.cons_prefix_cons.mpr ⟨rfl, hpre⟩, hpc⟩

theorem idle_of_accept {s : ServerState} (h : ReapInv s) (hpc : s.pc = .accept) : Idle s := by
  simp only [ReapInv, hpc] at h
  exact h

/-- In every run in which main looks at each node before the node's thread resets
its descriptor, each pass reaps the node it takes, and once the listed threads
have ended main is back at `accept` after at most eleven steps of its own. -/
theorem reap_in_turn (steps : List ServerStep) (h : server.Guarded HeadOpen serverInit steps) :
    let s := server.final serverInit steps
    let es := server.outputs serverInit steps
    (∀ n, .passedOver n ∉ es) ∧ tookOf es = removedOf es ++ inPass s ∧
    joinedOf es = removedOf es ++ unremoved s ∧
    (s.pc = .accept → s.head = [] ∧ s.threadCount = 0) ∧
    (InLoop s → Settled s → ∀ more, server.Guarded HeadOpen s more → 11 ≤ mainSteps more →
      ∃ before, before <+: more ∧
        let t := server.final s before
        t.pc = .accept ∧ t.head = [] ∧ t.threadCount = 0) := by
  have hr := reaped_run h
  intro s es
  refine ⟨hr.not_passedOver, hr.took_eq, hr.joined_eq, fun hpc => ?_, ?_⟩
  · have hidle := idle_of_accept hr.inv hpc
    exact ⟨hidle.head_eq, hidle.count_eq⟩
  · intro hloop hset more hg hsteps
    have hleft : stepsLeft s ≤ 11 := stepsLeft_le hr.inv
    obtain ⟨before, hpre, hpc⟩ := back_to_accept more s hr.inv hloop hset hg (by omega)
    have hinv : ReapInv (server.final s before) :=
      (server.guarded_true s before).invariant ReapInv (fun _ step hs _ => reapInv_step hs step)
        hr.inv
    have hidle := idle_of_accept hinv hpc
    exact ⟨before, hpre, hpc, hidle.head_eq, hidle.count_eq⟩

/-- Main joins a thread that is still at work, which then ends. -/
theorem reap_in_turn_one_client :
    let s := server.final serverInit
      (List.replicate 11 (.main 4) ++ [.thread 1, .thread 1, .thread 1])
    ∃ before, before <+: List.replicate 11 (.main 5) ∧
      let t := server.final s before
      t.pc = .accept ∧ t.head = [] ∧ t.threadCount = 0 := by
  intro s
  have hguard : server.Guarded HeadOpen serverInit
      (List.replicate 11 (.main 4) ++ [.thread 1, .thread 1, .thread 1]) := by decide
  have hmore : server.Guarded HeadOpen s (List.replicate 11 (.main 5)) := by decide
  have hpc : s.pc = .joining := by decide
  have hhead : s.head = [1] := by decide
  have hloop : InLoop s := by simp [InLoop, hpc]
  have hset : Settled s := by
    intro n hn
    rw [hhead] at hn
    obtain rfl := List.mem_singleton.mp hn
    exact Or.inl (by decide)
  exact (reap_in_turn _ hguard).2.2.2.2 hloop hset _ hmore (by decide)

/-- Main in front of a node it will pass over for ever. -/
structure Stuck (s : ServerState) (n : ℕ) : Prop where
  looping : s.pc = .loopTest ∨ s.pc = .takeHead ∨ (s.pc = .testFd ∧ s.datap = n)
  head_eq : s.head = [n]
  reset : (s.node n).clientSocketFd < 0

theorem Stuck.step {s : ServerState} {n : ℕ} (h : Stuck s n) (step : ServerStep) :
    Stuck (server.step s step).1 n := by
  cases step with
  | main fd =>
    change Stuck (mainStep s fd).1 n
    unfold mainStep
    rcases h.looping with hpc | hpc | ⟨hpc, hn⟩
    · simp only [hpc, h.head_eq]
      exact ⟨Or.inr (Or.inl rfl), rfl, h.reset⟩
    · simp only [hpc, h.head_eq]
      exact ⟨Or.inr (Or.inr ⟨rfl, rfl⟩), rfl, h.reset⟩
    · have hreset := h.reset
      rw [← hn] at hreset
      simp only [hpc, if_neg (not_le.mpr hreset)]
      exact ⟨Or.inl rfl, h.head_eq, h.reset⟩
  | thread m =>
    have hf := threadStep_frame s m
    refine ⟨?_, hf.head.trans h.head_eq, ?_⟩
    · change (threadStep s m).1.pc = _ ∨ (threadStep s m).1.pc = _ ∨
        ((threadStep s m).1.pc = _ ∧ (threadStep s m).1.datap = n)
      rw [hf.pc, hf.datap]
      exact h.looping
    · change ((threadStep s m).1.node n).clientSocketFd < 0
      have hreset := h.reset
      unfold threadStep
      cases s.thread m with
      | socketClosed =>
        by_cases hm : n = m
        · simp [hm]
        · simpa [Function.update_of_ne hm] using hreset
      | _ => exact hreset

theorem stuck_for_ever {s : ServerState} {n : ℕ} (h : Stuck s n) (more : List ServerStep) :
    (server.final s more).head = [n] ∧ (server.final s more).pc ≠ .accept := by
  have hstuck : Stuck (server.final s more) n :=
    (server.guarded_true s more).invariant (fun s => Stuck s n) (fun _ step hs _ => hs.step step) h
  refine ⟨hstuck.head_eq, fun hpc => ?_⟩
  rcases hstuck.looping with h | h | ⟨h, -⟩ <;> rw [h] at hpc <;> cases hpc

/-- The session ends before main looks at its node: main passes the node over
and never accepts again. -/
theorem early_end_blocks_main :
    let steps := List.replicate 6 (.main 4) ++ List.replicate 3 (.thread 1) ++
      List.replicate 3 (.main 4)
    .passedOver 1 ∈ server.outputs serverInit steps ∧
      (server.final serverInit steps).head = [1] ∧
      (server.final serverInit steps).thread 1 = .ended ∧
      ∀ more, (server.final serverInit (steps ++ more)).head = [1] ∧
        (server.final serverInit (steps ++ more)).pc ≠ .accept := by
  intro steps
  refine ⟨by decide, by decide, by decide, fun more => ?_⟩
  have hstuck : Stuck (server.final serverInit steps) 1 :=
    ⟨Or.inl (by decide), by decide, by decide⟩
  rw [server.final_append]
  exact stuck_for_ever hstuck more

end ProvenAesd.Server
