import ProvenAesd.SocketSequential
import ProvenAesd.SocketThreadTurns

/-! The whole server: main's accept and reap loop with the session threads it creates,
all of them statement by statement, on one device. -/
namespace ProvenAesd.Server
open LockedSections Mealy Driver Driver.DriverState

/-- A thread is named by its list node, and so is the client it serves. -/
structure WholeServer where
  main : ServerState
  sessions : World ℕ DriverState DeviceThread

inductive WholeStep
  | main (fd : ℕ)
  | thread (n : ℕ) (a : DeviceAnswer)

def DeviceThread.isEnded (x : DeviceThread) : Bool :=
  match x.pc with
  | .ended => true
  | _ => false

/-- A thread that main has created goes through its session, and then through the
statements that close its socket. With an `exit` all is over. -/
def wholeStep (kernel : FixedSizeLlseek) (w : WholeServer) (step : WholeStep) :
    WholeServer × ServerEvent × Option (ℕ × DeviceThread) :=
  if w.sessions.exited then (w, .quiet, none)
  else
    match step with
    | .main fd => (⟨(mainStep w.main fd).1, w.sessions⟩, (mainStep w.main fd).2, none)
    | .thread n a =>
      if w.main.thread n = .working ∧ (w.sessions.own n).isEnded = false then
        let r := (threads (DeviceThread.sendAndReceiveThread kernel)).step w.sessions (n, a)
        (⟨w.main, r.1⟩, .quiet, r.2)
      else (⟨(threadStep w.main n).1, w.sessions⟩, (threadStep w.main n).2, none)

def wholeServer (kernel : FixedSizeLlseek) :
    Machine WholeServer WholeStep (ServerEvent × Option (ℕ × DeviceThread)) := ⟨wholeStep kernel⟩

def wholeInit (dev : DriverState) (begun : ℕ → DeviceThread) : WholeServer :=
  ⟨serverInit, start dev begun⟩

def DeviceThread.left (x : DeviceThread) : Bool :=
  match x.pc with
  | .shutdown | .ended => true
  | _ => false

/-- Where a thread is in its session, as far as its phase tells. -/
def InPhase (phase : ThreadPhase) (x : DeviceThread) : Prop :=
  match phase with
  | .notCreated => x.pc = .lockMutex
  | .working => True
  | .socketClosed | .fdReset | .ended | .joined => x.pc = .ended

/-- The first `j` clients have had their turn, one after the other, and nobody else has. -/
structure InOrder (w : WholeServer) (outs : List (Option (ℕ × DeviceThread))) (j : ℕ) : Prop where
  phase : ∀ n, InPhase (w.main.thread n) (w.sessions.own n)
  left_iff : ∀ n, (w.sessions.own n).left = true ↔ 1 ≤ n ∧ n ≤ j
  order : (sections outs).map Prod.fst = List.range' 1 j

structure WholeInv (kernel : FixedSizeLlseek) (dev : DriverState) (w : WholeServer)
    (es : List ServerEvent) (outs : List (Option (ℕ × DeviceThread))) : Prop where
  sequential : ∃ k, Sequential w.main es k
  turns : InTurn (DeviceThread.sendAndReceiveThread kernel) (DeviceThread.Knows kernel)
    DeviceThread.inside dev w.sessions outs
  order : ∃ j, InOrder w outs j

section Left

variable {kernel : FixedSizeLlseek} {x : DeviceThread}

theorem left_of_inside (h : x.inside = true) : x.left = false := by
  unfold DeviceThread.inside at h
  unfold DeviceThread.left
  cases hpc : x.pc <;> simp_all

theorem left_of_pc (h : x.pc = .lockMutex) : x.left = false := by
  simp only [DeviceThread.left, h]

theorem left_of_ended (h : x.pc = .ended) : x.left = true := by
  simp only [DeviceThread.left, h]

theorem own_left (a : DeviceAnswer) (hk : x.kind = .own) : (x.own a).left = x.left := by
  unfold DeviceThread.kind at hk
  cases hpc : x.pc with
  | openLogFile => cases ha : a.opened <;> simp [DeviceThread.own, DeviceThread.left, hpc, ha]
  | recv => cases ha : a.recv <;> simp [DeviceThread.own, DeviceThread.left, hpc, ha]
  | send data =>
    by_cases ha : a.send = .failed <;> simp [DeviceThread.own, DeviceThread.left, hpc, ha]
  | closeLogFile | shutdown | ended | exited => simp [DeviceThread.own, DeviceThread.left, hpc]
  | lockMutex | handle r | rewind | read | unlockMutex => simp [hpc] at hk

variable {w : World ℕ DriverState DeviceThread} {n : ℕ}

theorem step_others (a : DeviceAnswer) {m : ℕ} (hm : m ≠ n) :
    ((threads (DeviceThread.sendAndReceiveThread kernel)).step w (n, a)).1.own m = w.own m := by
  simp only [threads, LockedSections.step]
  split
  · rfl
  · split
    · exact Function.update_of_ne hm ..
    · split
      · exact Function.update_of_ne hm ..
      · rfl
    · exact Function.update_of_ne hm ..
    · exact Function.update_of_ne hm ..

/-- A statement of a session leaves the section exactly when that is its output. -/
theorem step_left (a : DeviceAnswer) :
    let r := (threads (DeviceThread.sendAndReceiveThread kernel)).step w (n, a)
    (r.2 = none ∧ (r.1.own n).left = (w.own n).left) ∨
      ((w.own n).left = false ∧ (r.1.own n).left = true ∧ ∃ x, r.2 = some (n, x)) := by
  intro r
  have hside := (w.own n).side
  simp only [r, threads, LockedSections.step]
  by_cases hexited : w.exited = true
  · rw [if_pos hexited]
    exact Or.inl ⟨rfl, rfl⟩
  · rw [if_neg hexited]
    cases hk : (DeviceThread.sendAndReceiveThread kernel).kind (w.own n) with
    | own =>
      refine Or.inl ⟨rfl, ?_⟩
      simp only [Function.update_self]
      exact own_left a hk
    | lock =>
      have hlock : (w.own n).left = false := by
        change (w.own n).kind = .lock at hk
        unfold DeviceThread.kind at hk
        unfold DeviceThread.left
        cases hpc : (w.own n).pc <;> simp_all
      by_cases hfree : w.holder = none
      · simp only [if_pos hfree, Function.update_self]
        exact Or.inl ⟨trivial, hlock.symm⟩
      · simp only [if_neg hfree]
        exact Or.inl ⟨trivial, trivial⟩
    | shared =>
      change (w.own n).kind = .shared at hk
      rw [hk] at hside
      refine Or.inl ⟨rfl, ?_⟩
      simp only [Function.update_self]
      rw [left_of_inside hside]
      exact left_of_inside (DeviceThread.shared_inside a hk)
    -- the one statement that takes the thread out of its section
    | unlock =>
      change (w.own n).kind = .unlock at hk
      rw [hk] at hside
      refine Or.inr ⟨left_of_inside hside, ?_, w.own n, rfl⟩
      simp only [Function.update_self]
      rfl

end Left

section Step

variable {kernel : FixedSizeLlseek} {dev : DriverState} {w : WholeServer} {es : List ServerEvent}
  {outs : List (Option (ℕ × DeviceThread))} {j k : ℕ}

theorem Sequential.idle {s : ServerState} (h : Sequential s es k) : Sequential s (es ++ [.quiet]) k :=
  h.quiet h.inv h.turn h.joined rfl rfl rfl

/-- A thread of which main only knows that it works is the one behind those joined. -/
theorem Sequential.working {s : ServerState} (h : Sequential s es k) {n : ℕ}
    (hn : s.thread n = .working) : n = k+1 := by
  have hlive : Live s n := by
    rw [Live, hn]
    exact ⟨by decide, by decide⟩
  have hbounds := h.live hlive
  have hnext := h.turn.next_le
  omega

theorem InOrder.length_eq (h : InOrder w outs j) : (sections outs).length = j := by
  have hlength := congrArg List.length h.order
  rw [List.length_map, List.length_range'] at hlength
  exact hlength

/-- The clients that main has waited for have had their turn. -/
theorem InOrder.joined_le (h : InOrder w outs j) (hk : Sequential w.main es k) : k ≤ j := by
  rcases Nat.eq_zero_or_pos k with hzero | hpos
  · omega
  · have hjoined := (hk.joined.joined_iff k).mpr ⟨hpos, le_rfl⟩
    have hphase := h.phase k
    rw [hjoined] at hphase
    exact ((h.left_iff k).mp (left_of_ended hphase)).2

/-- Main or the end of a thread changes the phases of threads only. -/
theorem InOrder.of_phases (h : InOrder w outs j) {s : ServerState}
    (hphase : ∀ n, InPhase (s.thread n) (w.sessions.own n)) :
    InOrder ⟨s, w.sessions⟩ (outs ++ [none]) j := by
  refine ⟨hphase, h.left_iff, ?_⟩
  rw [sections_concat, Option.toList_none, List.append_nil]
  exact h.order

theorem mainStep_phases (s : ServerState) (fd : ℕ) {own : ℕ → DeviceThread}
    (h : ∀ n, InPhase (s.thread n) (own n)) (n : ℕ) :
    InPhase ((mainStep s fd).1.thread n) (own n) := by
  unfold mainStep
  cases s.pc with
  -- main changes phases in two places: where it creates a thread, and where it joins one
  | createThread =>
    change InPhase (Function.update s.thread s.datap .working n) (own n)
    by_cases hn : n = s.datap
    · rw [hn, Function.update_self]
      trivial
    · rw [Function.update_of_ne hn]
      exact h n
  | joining =>
    by_cases hend : s.thread (s.node s.datap).tid = .ended
    · simp only [if_pos hend]
      by_cases hn : n = (s.node s.datap).tid
      · have hphase := h n
        rw [hn, hend] at hphase
        rw [hn, Function.update_self]
        exact hphase
      · rw [Function.update_of_ne hn]
        exact h n
    · simp only [if_neg hend]
      exact h n
  | loopTest | takeHead | removeHead => cases s.head <;> exact h n
  | testFd =>
    simp only
    split <;> exact h n
  | _ => exact h n

/-- A thread closes its socket when its session has ended. -/
theorem threadStep_phases (s : ServerState) (m : ℕ) {own : ℕ → DeviceThread}
    (hended : s.thread m = .working → (own m).pc = .ended)
    (h : ∀ n, InPhase (s.thread n) (own n)) (n : ℕ) :
    InPhase ((threadStep s m).1.thread n) (own n) := by
  have hphase := h m
  have hupdate (phase : ThreadPhase) (hm : InPhase phase (own m)) :
      InPhase (Function.update s.thread m phase n) (own n) := by
    by_cases hn : n = m
    · rw [hn, Function.update_self]
      exact hm
    · rw [Function.update_of_ne hn]
      exact h n
  unfold threadStep
  cases hm : s.thread m with
  | working => exact hupdate _ (hended hm)
  | socketClosed | fdReset =>
    rw [hm] at hphase
    exact hupdate _ hphase
  | notCreated | ended | joined => exact h n

theorem session_order (h : InOrder w outs j) (hk : Sequential w.main es k) {n : ℕ}
    (hn : w.main.thread n = .working) (a : DeviceAnswer) :
    let r := (threads (DeviceThread.sendAndReceiveThread kernel)).step w.sessions (n, a)
    ∃ j', InOrder ⟨w.main, r.1⟩ (outs ++ [r.2]) j' := by
  intro r
  have hphase (m : ℕ) : InPhase (w.main.thread m) (r.1.own m) := by
    by_cases hm : m = n
    · rw [hm, hn]
      trivial
    · rw [step_others a hm]
      exact h.phase m
  have hother (m : ℕ) (hm : m ≠ n) : (r.1.own m).left = (w.sessions.own m).left := by
    rw [step_others a hm]
  rcases step_left (w := w.sessions) (n := n) a with ⟨hout, hleft⟩ | ⟨hbefore, hafter, x, hout⟩
  -- the thread is still where it was with respect to its unlock
  · refine ⟨j, hphase, fun m => ?_, ?_⟩
    · by_cases hm : m = n
      · rw [hm, ← h.left_iff n]
        exact iff_of_eq (congrArg (· = true) hleft)
      · rw [hother m hm]
        exact h.left_iff m
    · rw [hout, sections_concat, Option.toList_none, List.append_nil]
      exact h.order
  · -- the one thread that works is the next in order
    have hnk := hk.working hn
    have hle := h.joined_le hk
    have hnot : ¬(1 ≤ n ∧ n ≤ j) := by
      rw [← h.left_iff n, hbefore]
      exact Bool.false_ne_true
    have hj : n = j+1 := by omega
    refine ⟨j+1, hphase, fun m => ?_, ?_⟩
    · by_cases hm : m = n
      · rw [hm]
        exact iff_of_true hafter (by omega)
      · rw [hother m hm, h.left_iff m]
        omega
    · rw [hout, sections_concat, Option.toList_some, List.map_append, h.order, List.range'_1_concat,
        Nat.add_comm 1 j, ← hj]
      rfl

/-- What one step of main or of a thread preserves. -/
theorem wholeStep_inv (h : WholeInv kernel dev w es outs) (step : WholeStep) :
    let r := (wholeServer kernel).step w step
    WholeInv kernel dev r.1 (es ++ [r.2.1]) (outs ++ [r.2.2]) := by
  obtain ⟨⟨k, hk⟩, hturns, ⟨j, hj⟩⟩ := h
  simp only [wholeServer, wholeStep]
  by_cases hexited : w.sessions.exited = true
  · rw [if_pos hexited]
    exact ⟨⟨k, hk.idle⟩, hturns.idle, j, hj.of_phases hj.phase⟩
  · rw [if_neg hexited]
    cases step with
    | main fd =>
      exact ⟨mainStep_sequential hk fd, hturns.idle, j, hj.of_phases (mainStep_phases w.main fd hj.phase)⟩
    | thread n a =>
      -- a thread is in its session, or has ended that and closes its socket
      by_cases hsession : w.main.thread n = .working ∧ (w.sessions.own n).isEnded = false
      · simp only [if_pos hsession]
        exact ⟨⟨k, hk.idle⟩, hturns.step (DeviceThread.contract kernel) (n, a),
          session_order hj hk hsession.1 a⟩
      · simp only [if_neg hsession]
        have hended (hn : w.main.thread n = .working) : (w.sessions.own n).pc = .ended := by
          have hend := mt (And.intro hn) hsession
          unfold DeviceThread.isEnded at hend
          cases hpc : (w.sessions.own n).pc <;> simp_all
        exact ⟨⟨k, threadStep_sequential hk n⟩, hturns.idle, j,
          hj.of_phases (threadStep_phases w.main n hended hj.phase)⟩

theorem wholeInit_inv {begun : ℕ → DeviceThread} (hbegun : ∀ n, (begun n).pc = .lockMutex) :
    WholeInv kernel dev (wholeInit dev begun) [] [] := by
  refine ⟨sequential_run [], inTurn_start _ _ dev fun n => ?_, 0, hbegun, fun n => ?_, rfl⟩
  · simp only [DeviceThread.inside, hbegun n]
  · apply iff_of_false
    · change ¬(begun n).left = true
      rw [left_of_pc (hbegun n)]
      exact Bool.false_ne_true
    · omega

/-- The sessions that are over are those of the first clients. -/
theorem WholeInv.order_eq (h : WholeInv kernel dev w es outs) :
    (sections outs).map Prod.fst = List.range' 1 (sections outs).length := by
  obtain ⟨j, hj⟩ := h.order
  rw [hj.length_eq]
  exact hj.order

/-- When main is at `accept`, every client has had its turn and the mutex is free. -/
theorem WholeInv.at_accept (h : WholeInv kernel dev w es outs) (hpc : w.main.pc = .accept) :
    w.main.nextNode = (sections outs).length+1 ∧ w.sessions.holder = none := by
  obtain ⟨⟨k, hk⟩, hturns, ⟨j, hj⟩⟩ := h
  obtain ⟨hnext, -, hnobody⟩ := hk.at_accept hpc
  have hle := hj.joined_le hk
  rw [hj.length_eq]
  constructor
  · rcases Nat.eq_zero_or_pos j with hzero | hpos
    · omega
    · have hleft := (hj.left_iff j).mpr ⟨hpos, le_rfl⟩
      have hcreated : w.main.thread j ≠ .notCreated := by
        intro hnot
        have hphase := hj.phase j
        rw [hnot] at hphase
        rw [left_of_pc hphase] at hleft
        cases hleft
      have hbounds := hk.joined.created j hcreated
      omega
  · by_contra hheld
    obtain ⟨t, ht⟩ := Option.ne_none_iff_exists'.mp hheld
    have hin := (hturns.holder_iff t).mp ht
    have hphase := hj.phase t
    have hlive := hnobody t
    -- a thread inside would be one that works
    cases hthread : w.main.thread t with
    | working =>
      rw [Live, hthread] at hlive
      exact hlive ⟨by decide, by decide⟩
    | notCreated =>
      rw [hthread] at hphase
      simp only [DeviceThread.inside, show (w.sessions.own t).pc = .lockMutex from hphase] at hin
      cases hin
    | socketClosed | fdReset | ended | joined =>
      rw [hthread] at hphase
      simp only [DeviceThread.inside, show (w.sessions.own t).pc = .ended from hphase] at hin
      cases hin

theorem wholeServer_inv {begun : ℕ → DeviceThread} (hbegun : ∀ n, (begun n).pc = .lockMutex)
    (steps : List WholeStep) :
    WholeInv kernel dev ((wholeServer kernel).final (wholeInit dev begun) steps)
      (((wholeServer kernel).outputs (wholeInit dev begun) steps).map Prod.fst)
      (((wholeServer kernel).outputs (wholeInit dev begun) steps).map Prod.snd) := by
  apply ((wholeServer kernel).guarded_true _ steps).history fun w _ os =>
    WholeInv kernel dev w (os.map Prod.fst) (os.map Prod.snd)
  · exact wholeInit_inv hbegun
  · intro w _ os step h _
    simp only [List.map_append]
    exact wholeStep_inv h step

end Step

/-- However main and the threads interleave, the clients are served in the order in which
main has accepted them, each in a session of its own on what the one before left; and
when main waits for the next client, all those before have been answered. -/
theorem clients_served_in_accept_order (kernel : FixedSizeLlseek) {dev : DriverState}
    (hdev : Reachable dev) {begun : ℕ → DeviceThread} (hbegun : ∀ n, (begun n).pc = .lockMutex)
    (steps : List WholeStep) :
    let w := (wholeServer kernel).final (wholeInit dev begun) steps
    let past := sections (((wholeServer kernel).outputs (wholeInit dev begun) steps).map Prod.snd)
    past.map Prod.fst = List.range' 1 past.length ∧
      List.Forall₂ AnsweredBy past ((serving kernel).outputs dev (clientsOf past)) ∧
      (w.main.pc = .accept → w.main.nextNode = past.length+1 ∧
        w.sessions.shared = (serving kernel).final dev (clientsOf past)) := by
  intro w past
  have hinv : WholeInv kernel dev w _ _ := wholeServer_inv hbegun steps
  obtain ⟨dev', hchain, hheld⟩ := hinv.turns.chain
  obtain ⟨-, hfinal, hanswered⟩ := chain_serving hdev.wf hchain
  refine ⟨hinv.order_eq, hanswered, fun hpc => ?_⟩
  obtain ⟨hnext, hfree⟩ := hinv.at_accept hpc
  rw [Held, hfree] at hheld
  exact ⟨hnext, hheld.trans hfinal⟩

/-- Main accepts a client and waits for its thread, which runs in the meantime. -/
def clientTurn (n : ℕ) (a : DeviceAnswer) : List WholeStep :=
  List.replicate 10 (.main 3) ++ List.replicate 14 (.thread n a) ++ List.replicate 5 (.main 3)

def twoClients : List WholeStep :=
  clientTurn 1 ⟨true, some (plainRecv [46, 10] (by decide) (by decide)), false, .whole⟩ ++
    clientTurn 2 ⟨true, none, false, .whole⟩

theorem clients_served_in_accept_order_two_clients :
    let w := (wholeServer boundedLlseek).final (wholeInit aesdInitModule fun _ => startedThread) twoClients
    let past := sections (((wholeServer boundedLlseek).outputs
      (wholeInit aesdInitModule fun _ => startedThread) twoClients).map Prod.snd)
    past.map (fun e => (e.1, e.2.sent)) = [(1, [46, 10]), (2, [46, 10])] ∧ w.main.nextNode = 3 ∧
      w.sessions.shared = (serving boundedLlseek).final aesdInitModule (clientsOf past) := by
  have hdev : Reachable aesdInitModule := ⟨[], rfl⟩
  have h := clients_served_in_accept_order boundedLlseek hdev
    (fun _ => (rfl : startedThread.pc = .lockMutex)) twoClients
  exact ⟨by decide +kernel, by decide +kernel, (h.2.2 (by decide +kernel)).2⟩

end ProvenAesd.Server
