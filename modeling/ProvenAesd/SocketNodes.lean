import ProvenAesd.QueueList
import ProvenAesd.SocketSequential

/-! The list of the server in memory, and which of its nodes main and the session
threads read or write while they interleave. -/
namespace ProvenAesd.Server
open Mealy SinglyLinked

/-- The macro that a statement uses on `g_head`. -/
def listCalls (s : ServerState) : ServerStep → List (SListCall Unit ℕ)
  | .main _ =>
    match s.pc with
    | .insertHead => [.insertHead () s.datap]
    | .loopTest => [.empty ()]
    | .takeHead => [.first ()]
    | .removeHead => [.removeHead ()]
    | _ => []
  | .thread _ => []

/-- The nodes that a statement reads or writes, other than one it allocates. -/
def touchedNodes (s : ServerState) : ServerStep → List ℕ
  | .main _ =>
    match s.pc with
    | .recordTid | .insertHead | .testFd | .join | .freeNode => [s.datap]
    -- the link of the first node, and the thread id in `g_datap` for the log
    | .removeHead => s.head.head?.toList ++ [s.datap]
    | _ => []
  | .thread n =>
    match s.thread n with
    | .working | .socketClosed => [n]
    | _ => []

/-- The server, and `g_head` in memory beside the list it stands for. -/
def serverLists : Machine (ServerState × SListMem Unit ℕ) ServerStep
    (ServerEvent × List (SListReply ℕ)) where
  step p step :=
    (((server.step p.1 step).1, slist.final p.2 (listCalls p.1 step)),
      ((server.step p.1 step).2, slist.outputs p.2 (listCalls p.1 step)))

section Step

variable {s : ServerState} {m : SListMem Unit ℕ} {es : List ServerEvent} {k : ℕ}

theorem update_constant {α : Type*} (a b : α) :
    Function.update (fun _ : Unit => a) () b = fun _ => b := by
  funext u
  rw [Function.update_self]

/-- Main uses the macros where it may, and they change the list as its model does. -/
theorem listCalls_fit (h : ReapInv s) (step : ServerStep) :
    plainLists.Guarded Fits (fun _ => s.head) (listCalls s step) ∧
      plainLists.final (fun _ => s.head) (listCalls s step) = fun _ => (server.step s step).1.head := by
  cases step with
  | thread n =>
    simp only [listCalls, server, (threadStep_frame s n).head]
    exact ⟨trivial, rfl⟩
  | main fd =>
    unfold ReapInv at h
    simp only [listCalls, server, mainStep]
    cases hpc : s.pc with
    | insertHead =>
      simp only [hpc] at h
      refine ⟨⟨fun _ => ?_, trivial⟩, ?_⟩
      · rw [h.1]
        exact List.not_mem_nil
      · simp only [Machine.final_cons, Machine.final_nil, plainLists, update_constant]
    | removeHead =>
      simp only [hpc] at h
      simp only [h.1]
      refine ⟨⟨List.cons_ne_nil _ _, trivial⟩, ?_⟩
      simp only [Machine.final_cons, Machine.final_nil, plainLists, update_constant, List.tail_cons]
    | loopTest =>
      refine ⟨⟨trivial, trivial⟩, ?_⟩
      cases s.head <;> rfl
    | takeHead =>
      simp only [hpc] at h
      obtain ⟨n, hlisted⟩ := h
      simp only [hlisted.head_eq]
      exact ⟨⟨trivial, trivial⟩, rfl⟩
    | testFd | joining =>
      refine ⟨trivial, ?_⟩
      split_ifs <;> rfl
    | _ => exact ⟨trivial, rfl⟩

/-- The node of a thread that has been joined is still allocated until main frees it. -/
theorem Sequential.joined_allocated (h : Sequential s es k) {n : ℕ} (hn : n ∈ joinedNode s) :
    (1 ≤ n ∧ n ≤ k) ∧ n ∉ freedOf es := by
  have hfrees := h.frees
  rw [h.joins] at hfrees
  have hrange : n ∈ List.range' 1 k := hfrees ▸ List.mem_append_right _ hn
  have hnodup : (freedOf es ++ joinedNode s).Nodup := hfrees ▸ List.nodup_range'
  rw [List.mem_range'_1] at hrange
  refine ⟨by omega, fun hfreed => ?_⟩
  exact (List.nodup_append.mp hnodup).2.2 n hfreed n hn rfl

theorem Sequential.later_allocated (h : Sequential s es k) {n : ℕ} (hn : k < n) :
    n ∉ freedOf es := by
  intro hfreed
  have hfrees := h.frees
  rw [h.joins] at hfrees
  have hrange : n ∈ List.range' 1 k := hfrees ▸ List.mem_append_left _ hfreed
  rw [List.mem_range'_1] at hrange
  omega

/-- Main and the threads touch the node of the client that is being served, and main
that of the one just joined. -/
theorem Sequential.touched (h : Sequential s es k) {step : ServerStep} {n : ℕ}
    (hn : n ∈ touchedNodes s step) : (1 ≤ n ∧ n < s.nextNode) ∧ n ∉ freedOf es := by
  have hturn := h.turn
  cases step with
  | thread n' =>
    have hlive : n = n' ∧ Live s n' := by
      simp only [touchedNodes] at hn
      cases hphase : s.thread n' <;> simp_all [Live]
    obtain ⟨rfl, hlive⟩ := hlive
    have hbounds := h.live hlive
    exact ⟨by omega, h.later_allocated hbounds.1⟩
  | main fd =>
    unfold Turn at hturn
    simp only [touchedNodes] at hn
    cases hpc : s.pc with
    | recordTid | insertHead | testFd | join =>
      simp only [hpc, List.mem_singleton] at hn hturn
      exact ⟨by omega, h.later_allocated (by omega)⟩
    | removeHead =>
      have hreap := h.inv
      simp only [ReapInv, hpc] at hreap
      simp only [hpc] at hn hturn
      have hdatap : n = s.datap := by simpa [hreap.1] using hn
      obtain ⟨hbounds, hallocated⟩ := h.joined_allocated (n := n) (by simp [joinedNode, hpc, hdatap])
      exact ⟨by omega, hallocated⟩
    | freeNode =>
      simp only [hpc, List.mem_singleton] at hn hturn
      obtain ⟨hbounds, hallocated⟩ := h.joined_allocated (n := n) (by simp [joinedNode, hpc, hn])
      exact ⟨by omega, hallocated⟩
    | _ => simp [hpc] at hn

end Step

theorem serverLists_server (p : ServerState × SListMem Unit ℕ) (steps : List ServerStep) :
    (serverLists.final p steps).1 = server.final p.1 steps ∧
      (serverLists.outputs p steps).map Prod.fst = server.outputs p.1 steps := by
  induction steps generalizing p with
  | nil => exact ⟨rfl, rfl⟩
  | cons step steps ih =>
    obtain ⟨hfinal, houtputs⟩ := ih (serverLists.step p step).1
    rw [Machine.final_cons, Machine.outputs_cons, List.map_cons, houtputs]
    exact ⟨hfinal, rfl⟩

/-- Whatever memory holds at first, over every interleaving of main with the session
threads `g_head` leads through the list of the model, every macro answers as on that list,
and a node that main or a thread touches has been allocated and not been freed yet. -/
theorem nodes_touched_while_allocated (m : SListMem Unit ℕ) (steps : List ServerStep)
    (step : ServerStep) :
    let p := serverLists.final (serverInit, slistInit m ()) steps
    let es := (serverLists.outputs (serverInit, slistInit m ()) steps).map Prod.fst
    Represents (fun _ => p.1.head) p.2 ∧
      slist.outputs p.2 (listCalls p.1 step) =
        plainLists.outputs (fun _ => p.1.head) (listCalls p.1 step) ∧
      ∀ n ∈ touchedNodes p.1 step, (1 ≤ n ∧ n < p.1.nextNode) ∧ n ∉ freedOf es := by
  intro p es
  obtain ⟨hserver, hevents⟩ := serverLists_server (serverInit, slistInit m ()) steps
  obtain ⟨k, hseq⟩ := sequential_run steps
  have hrun : ReapInv p.1 ∧ Represents (fun _ => p.1.head) p.2 := by
    apply (serverLists.guarded_true (serverInit, slistInit m ()) steps).invariant
      fun p => ReapInv p.1 ∧ Represents (fun _ => p.1.head) p.2
    · rintro p step ⟨hreap, hrep⟩ -
      obtain ⟨hfits, hlist⟩ := listCalls_fit hreap step
      obtain ⟨-, hnext⟩ := represents_run hrep hfits
      rw [hlist] at hnext
      exact ⟨reapInv_step hreap step, hnext⟩
    · refine ⟨⟨rfl, rfl⟩, fun _ => ?_, fun _ _ _ hx => absurd hx List.not_mem_nil⟩
      exact Function.update_self () none m.slhFirst
  refine ⟨hrun.2, (represents_run hrun.2 (listCalls_fit hrun.1 step).1).1, fun n hn => ?_⟩
  have hes : es = server.outputs serverInit steps := hevents
  have hp : p.1 = server.final serverInit steps := hserver
  rw [hes]
  rw [hp] at hn ⊢
  exact hseq.touched hn

end ProvenAesd.Server
