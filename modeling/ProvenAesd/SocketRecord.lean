import ProvenAesd.SocketSignal

/-! The record of a run, and what a step may add to it: which joins, frees, uses and
closes keep a run of main, handler and session threads clean. -/
namespace ProvenAesd.Server

def ThreadPhase.rank : ThreadPhase → ℕ
  | notCreated => 0
  | working => 1
  | socketClosed => 2
  -- from here on the descriptor in the node is -1, and the thread is done with the node
  | fdReset => 3
  | ended => 4
  | joined => 5

/-! The logs when one more event is recorded. -/

section Logs

variable (p : ServerEvent → List ℕ) (os : List ShutdownEvent) (o : ShutdownEvent)

@[simp] theorem logOf_concat : logOf p (os ++ [o]) = logOf p os ++ p o.event := by
  simp [logOf]

theorem logOf_quiet {p : ServerEvent → List ℕ} {os : List ShutdownEvent} {o : ShutdownEvent}
    (h : p o.event = []) : logOf p (os ++ [o]) = logOf p os := by
  rw [logOf_concat, h, List.append_nil]

@[simp] theorem handlerLog_concat :
    handlerLog p (os ++ [o]) = handlerLog p os ++ p o.handlerEvent := by
  simp [handlerLog]

@[simp] theorem listedOf_concat : listedOf (os ++ [o]) = listedOf os ++ o.listed := by
  simp [listedOf]

theorem usesLive_concat (gone : List ℕ) : UsesLive gone (os ++ [o]) ↔
    UsesLive gone os ∧ ∀ n ∈ o.uses, n ∉ gone ++ logOf ServerEvent.frees os := by
  induction os generalizing gone with
  | nil => simp [UsesLive, logOf]
  | cons e os ih =>
    rw [List.cons_append, UsesLive, UsesLive, ih, and_assoc, List.append_assoc]
    rfl

end Logs

/-- The threads, their descriptors and the record of the run, at any point of it. -/
structure Recorded (s : ServerState) (os : List ShutdownEvent) : Prop where
  open_fd : ∀ n, 1 ≤ (s.thread n).rank → (s.thread n).rank < 3 → 0 ≤ (s.node n).clientSocketFd
  reset_fd : ∀ n, 3 ≤ (s.thread n).rank → (s.node n).clientSocketFd = -1
  fresh : ∀ n, s.nextNode ≤ n → (s.thread n).rank = 0
  joins : (logOf ServerEvent.joinStarts os).Nodup
  frees : (logOf ServerEvent.frees os).Nodup
  uses : UsesLive [] os
  closes : (logOf ServerEvent.closes os).Nodup
  frees_rank : ∀ n ∈ logOf ServerEvent.frees os, 3 ≤ (s.thread n).rank
  closes_rank : ∀ n ∈ logOf ServerEvent.closes os, 2 ≤ (s.thread n).rank
  listed : ∀ n ∈ s.head, 1 ≤ (s.thread n).rank ∧ n ∉ logOf ServerEvent.frees os

/-- What a step adds to the record, in a state that allows it. -/
structure Allowed (s t : ServerState) (os : List ShutdownEvent) (o : ShutdownEvent) : Prop where
  grows : ∀ n, (s.thread n).rank ≤ (t.thread n).rank
  open_fd : ∀ n, 1 ≤ (t.thread n).rank → (t.thread n).rank < 3 → 0 ≤ (t.node n).clientSocketFd
  reset_fd : ∀ n, 3 ≤ (t.thread n).rank → (t.node n).clientSocketFd = -1
  fresh : ∀ n, t.nextNode ≤ n → (t.thread n).rank = 0
  joins : ∀ n, o.event = .joinStarted n → n ∉ logOf ServerEvent.joinStarts os
  frees : ∀ n, o.event = .freed n →
    n ∉ logOf ServerEvent.frees os ∧ 3 ≤ (t.thread n).rank ∧ n ∉ t.head
  uses : ∀ n ∈ o.uses, n ∉ logOf ServerEvent.frees os
  closes : ∀ n, o.event = .closedSocket n →
    n ∉ logOf ServerEvent.closes os ∧ 2 ≤ (t.thread n).rank
  listed : ∀ n ∈ t.head,
    n ∈ s.head ∨ (1 ≤ (t.thread n).rank ∧ n ∉ logOf ServerEvent.frees os)

/-- At most one node is added to a log that does not hold it yet. -/
theorem nodup_append_of_log {p : ServerEvent → List ℕ} {e : ServerEvent} {ns : List ℕ}
    (hns : ns.Nodup) (hp : (p e).Nodup) (hnew : ∀ n ∈ p e, n ∉ ns) : (ns ++ p e).Nodup :=
  List.nodup_append'.mpr ⟨hns, hp, fun n hn hne => hnew n hne hn⟩

theorem mem_joinStarts {e : ServerEvent} {n : ℕ} : n ∈ e.joinStarts ↔ e = .joinStarted n := by
  cases e <;> simp [ServerEvent.joinStarts, eq_comm]

theorem mem_frees {e : ServerEvent} {n : ℕ} : n ∈ e.frees ↔ e = .freed n := by
  cases e <;> simp [ServerEvent.frees, eq_comm]

theorem mem_closes {e : ServerEvent} {n : ℕ} : n ∈ e.closes ↔ e = .closedSocket n := by
  cases e <;> simp [ServerEvent.closes, eq_comm]

theorem Recorded.concat {s t : ServerState} {os : List ShutdownEvent} {o : ShutdownEvent}
    (h : Recorded s os) (ha : Allowed s t os o) : Recorded t (os ++ [o]) := by
  have hjoins : o.event.joinStarts.Nodup := by
    cases o.event <;> simp [ServerEvent.joinStarts]
  have hfrees : o.event.frees.Nodup := by
    cases o.event <;> simp [ServerEvent.frees]
  have hcloses : o.event.closes.Nodup := by
    cases o.event <;> simp [ServerEvent.closes]
  refine ⟨ha.open_fd, ha.reset_fd, ha.fresh, ?_, ?_, ?_, ?_, ?_, ?_, ?_⟩
  · rw [logOf_concat]
    exact nodup_append_of_log h.joins hjoins fun n hn => ha.joins n (mem_joinStarts.mp hn)
  · rw [logOf_concat]
    exact nodup_append_of_log h.frees hfrees fun n hn => (ha.frees n (mem_frees.mp hn)).1
  · rw [usesLive_concat, List.nil_append]
    exact ⟨h.uses, ha.uses⟩
  · rw [logOf_concat]
    exact nodup_append_of_log h.closes hcloses fun n hn => (ha.closes n (mem_closes.mp hn)).1
  · intro n hn
    rw [logOf_concat] at hn
    rcases List.mem_append.mp hn with hn | hn
    · exact (h.frees_rank n hn).trans (ha.grows n)
    · exact (ha.frees n (mem_frees.mp hn)).2.1
  · intro n hn
    rw [logOf_concat] at hn
    rcases List.mem_append.mp hn with hn | hn
    · exact (h.closes_rank n hn).trans (ha.grows n)
    · exact (ha.closes n (mem_closes.mp hn)).2
  · intro n hn
    have hunfreed : n ∉ o.event.frees := fun hf => (ha.frees n (mem_frees.mp hf)).2.2 hn
    rw [logOf_concat, List.mem_append, not_or]
    rcases ha.listed n hn with hold | ⟨hrank, hlive⟩
    · exact ⟨(h.listed n hold).1.trans (ha.grows n), (h.listed n hold).2, hunfreed⟩
    · exact ⟨hrank, hlive, hunfreed⟩

section Steps

variable {s t : ServerState} {os : List ShutdownEvent} {o : ShutdownEvent} (h : Recorded s os)

include h

theorem Recorded.lt_nextNode {n : ℕ} (hn : 1 ≤ (s.thread n).rank) : n < s.nextNode := by
  by_contra hge
  have hzero := h.fresh n (not_lt.mp hge)
  omega

/-- A node whose thread is still at work has not been freed. -/
theorem Recorded.unfreed {n : ℕ} (hn : (s.thread n).rank < 3) :
    n ∉ logOf ServerEvent.frees os := by
  intro hf
  have hrank := h.frees_rank n hf
  omega

/-- A step that leaves the threads where they are. -/
theorem Recorded.keep (hthread : t.thread = s.thread)
    (hfd : ∀ n, 1 ≤ (s.thread n).rank → (t.node n).clientSocketFd = (s.node n).clientSocketFd)
    (hnext : s.nextNode ≤ t.nextNode)
    (hhead : ∀ n ∈ t.head,
      n ∈ s.head ∨ (1 ≤ (s.thread n).rank ∧ n ∉ logOf ServerEvent.frees os))
    (hjoins : ∀ n, o.event = .joinStarted n → n ∉ logOf ServerEvent.joinStarts os)
    (hfrees : ∀ n, o.event = .freed n →
      n ∉ logOf ServerEvent.frees os ∧ 3 ≤ (s.thread n).rank ∧ n ∉ t.head)
    (hcloses : ∀ n, o.event ≠ .closedSocket n)
    (huses : ∀ n ∈ o.uses, n ∉ logOf ServerEvent.frees os) : Allowed s t os o := by
  constructor
  · intro n
    rw [hthread]
  · intro n hlow hhigh
    rw [hthread] at hlow hhigh
    rw [hfd n hlow]
    exact h.open_fd n hlow hhigh
  · intro n hn
    rw [hthread] at hn
    rw [hfd n (by omega)]
    exact h.reset_fd n hn
  · intro n hn
    rw [hthread]
    exact h.fresh n (hnext.trans hn)
  · exact hjoins
  · intro n hn
    rw [hthread]
    exact hfrees n hn
  · exact huses
  · intro n hn
    exact absurd hn (hcloses n)
  · intro n hn
    rw [hthread]
    exact hhead n hn

/-- Such a step that neither joins nor frees nor closes. -/
theorem Recorded.keepSilent (hthread : t.thread = s.thread)
    (hfd : ∀ n, 1 ≤ (s.thread n).rank → (t.node n).clientSocketFd = (s.node n).clientSocketFd)
    (hnext : s.nextNode ≤ t.nextNode)
    (hhead : ∀ n ∈ t.head,
      n ∈ s.head ∨ (1 ≤ (s.thread n).rank ∧ n ∉ logOf ServerEvent.frees os))
    (hjoins : o.event.joinStarts = []) (hfrees : o.event.frees = [])
    (hcloses : o.event.closes = []) (huses : ∀ n ∈ o.uses, n ∉ logOf ServerEvent.frees os) :
    Allowed s t os o := by
  apply h.keep hthread hfd hnext hhead
  · intro n hn
    rw [hn] at hjoins
    cases hjoins
  · intro n hn
    rw [hn] at hfrees
    cases hfrees
  · intro n hn
    rw [hn] at hcloses
    cases hcloses
  · exact huses

/-- Such a step that leaves the nodes as they are and puts none on the list. -/
theorem Recorded.keepQuiet (hthread : t.thread = s.thread) (hnode : t.node = s.node)
    (hnext : t.nextNode = s.nextNode) (hhead : t.head <:+ s.head)
    (hjoins : o.event.joinStarts = []) (hfrees : o.event.frees = [])
    (hcloses : o.event.closes = []) (huses : ∀ n ∈ o.uses, n ∉ logOf ServerEvent.frees os) :
    Allowed s t os o := by
  refine h.keepSilent hthread ?_ hnext.ge ?_ hjoins hfrees hcloses huses
  · intro n _
    rw [hnode]
  · intro n hn
    exact Or.inl (hhead.subset hn)

/-- The start of a join, of a thread that nobody has started to join. -/
theorem Recorded.keepJoin {n : ℕ} (hthread : t.thread = s.thread) (hnode : t.node = s.node)
    (hnext : t.nextNode = s.nextNode) (hhead : t.head = s.head) (hevent : o.event = .joinStarted n)
    (hnew : n ∉ logOf ServerEvent.joinStarts os)
    (huses : ∀ m ∈ o.uses, m ∉ logOf ServerEvent.frees os) : Allowed s t os o := by
  refine h.keep hthread (fun m _ => by rw [hnode]) hnext.ge ?_ ?_ ?_ ?_ huses
  · intro m hm
    rw [hhead] at hm
    exact Or.inl hm
  · intro m hm
    obtain rfl : n = m := ServerEvent.joinStarted.inj (hevent.symm.trans hm)
    exact hnew
  · intro m hm
    rw [hevent] at hm
    cases hm
  · intro m hm
    rw [hevent] at hm
    cases hm

/-- The free of a node that is off the list, behind the last use its thread has for it. -/
theorem Recorded.keepFree {n : ℕ} (hthread : t.thread = s.thread) (hnode : t.node = s.node)
    (hnext : t.nextNode = s.nextNode) (hnil : s.head = []) (hhead : t.head = s.head)
    (hevent : o.event = .freed n) (hrank : 3 ≤ (s.thread n).rank)
    (hlive : n ∉ logOf ServerEvent.frees os)
    (huses : ∀ m ∈ o.uses, m ∉ logOf ServerEvent.frees os) : Allowed s t os o := by
  have hempty : t.head = [] := hhead.trans hnil
  refine h.keep hthread (fun m _ => by rw [hnode]) hnext.ge ?_ ?_ ?_ ?_ huses
  · intro m hm
    rw [hempty] at hm
    cases hm
  · intro m hm
    rw [hevent] at hm
    cases hm
  · intro m hm
    obtain rfl : n = m := ServerEvent.freed.inj (hevent.symm.trans hm)
    rw [hempty]
    exact ⟨hlive, hrank, List.not_mem_nil⟩
  · intro m hm
    rw [hevent] at hm
    cases hm

/-- A step that takes one thread on. -/
theorem Recorded.move {n : ℕ} {p : ThreadPhase}
    (hthread : t.thread = Function.update s.thread n p) (hlt : n < s.nextNode)
    (hle : (s.thread n).rank ≤ p.rank)
    (hfd : ∀ m, m ≠ n → (t.node m).clientSocketFd = (s.node m).clientSocketFd)
    (hopen : p.rank < 3 → 0 ≤ (t.node n).clientSocketFd)
    (hreset : 3 ≤ p.rank → (t.node n).clientSocketFd = -1) (hnext : t.nextNode = s.nextNode)
    (hhead : t.head = s.head) (hjoins : o.event.joinStarts = []) (hfrees : o.event.frees = [])
    (hcloses : ∀ m, o.event = .closedSocket m →
      m ∉ logOf ServerEvent.closes os ∧ m = n ∧ 2 ≤ p.rank)
    (huses : ∀ m ∈ o.uses, m ∉ logOf ServerEvent.frees os) : Allowed s t os o := by
  have hself : t.thread n = p := by rw [hthread, Function.update_self]
  have hother (m : ℕ) (hm : m ≠ n) : t.thread m = s.thread m := by
    rw [hthread, Function.update_of_ne hm]
  -- every field speaks of all threads: the one that moves, and the others
  constructor
  · intro m
    by_cases hm : m = n
    · rw [hm, hself]
      exact hle
    · rw [hother m hm]
  · intro m hlow hhigh
    by_cases hm : m = n
    · rw [hm, hself] at hhigh
      rw [hm]
      exact hopen hhigh
    · rw [hother m hm] at hlow hhigh
      rw [hfd m hm]
      exact h.open_fd m hlow hhigh
  · intro m hrank
    by_cases hm : m = n
    · rw [hm, hself] at hrank
      rw [hm]
      exact hreset hrank
    · rw [hother m hm] at hrank
      rw [hfd m hm]
      exact h.reset_fd m hrank
  · intro m hm
    rw [hnext] at hm
    rw [hother m (by omega)]
    exact h.fresh m hm
  · intro m hm
    rw [hm] at hjoins
    cases hjoins
  · intro m hm
    rw [hm] at hfrees
    cases hfrees
  · exact huses
  · intro m hm
    obtain ⟨hnew, rfl, hrank⟩ := hcloses m hm
    rw [hself]
    exact ⟨hnew, hrank⟩
  · intro m hm
    rw [hhead] at hm
    exact Or.inl hm

/-- The end of a join: the thread has ended, and so its descriptor is reset. -/
theorem Recorded.moveJoined {n : ℕ} (hend : s.thread n = .ended)
    (hthread : t.thread = Function.update s.thread n .joined) (hnode : t.node = s.node)
    (hnext : t.nextNode = s.nextNode) (hhead : t.head = s.head)
    (hevent : o.event = .joined n) (huses : ∀ m ∈ o.uses, m ∉ logOf ServerEvent.frees os) :
    Allowed s t os o := by
  have hrank : (s.thread n).rank = 4 := by rw [hend]; rfl
  refine h.move hthread (h.lt_nextNode (by omega)) (by rw [hend]; decide) ?_ ?_ ?_ hnext hhead ?_ ?_
    ?_ huses
  · intro m _
    rw [hnode]
  · exact fun hlt => absurd hlt (by decide)
  · intro _
    rw [hnode]
    exact h.reset_fd n (by omega)
  · rw [hevent]
    rfl
  · rw [hevent]
    rfl
  · intro m hm
    rw [hevent] at hm
    cases hm

/-- The node on the list has a thread and has not been freed. -/
theorem Recorded.of_head {n : ℕ} (hhead : s.head = [n]) :
    1 ≤ (s.thread n).rank ∧ n ∉ logOf ServerEvent.frees os := by
  apply h.listed
  rw [hhead]
  exact List.mem_cons_self

/-- The last steps of a session: it closes its socket and is done with its node
before anybody can free it. -/
theorem threadStep_allowed (n : ℕ) :
    Allowed s (threadStep s n).1 os (.server (threadStep s n).2 (threadUses s n)) := by
  unfold threadStep threadUses
  cases hp : s.thread n with
  | working =>
    have hrank : (s.thread n).rank = 1 := by rw [hp]; rfl
    have hlt : n < s.nextNode := h.lt_nextNode (by omega)
    have hlive : n ∉ logOf ServerEvent.frees os := h.unfreed (by omega)
    apply h.move rfl hlt (by rw [hp]; decide)
    · exact fun _ _ => rfl
    · intro _
      exact h.open_fd n (by omega) (by omega)
    · exact fun hge => absurd hge (by decide)
    · rfl
    · rfl
    · rfl
    · rfl
    -- a socket closed before would have taken the thread further
    · rintro m ⟨⟩
      refine ⟨fun hc => ?_, rfl, le_rfl⟩
      have hclosed := h.closes_rank n hc
      omega
    · exact List.forall_mem_singleton.mpr hlive
  | socketClosed =>
    have hrank : (s.thread n).rank = 2 := by rw [hp]; rfl
    have hlt : n < s.nextNode := h.lt_nextNode (by omega)
    have hlive : n ∉ logOf ServerEvent.frees os := h.unfreed (by omega)
    apply h.move rfl hlt (by rw [hp]; decide)
    · intro m hm
      simp [Function.update_of_ne hm]
    · exact fun hlt => absurd hlt (by decide)
    -- the store of -1 into the node
    · intro _
      simp
    · rfl
    · rfl
    · rfl
    · rfl
    · intro m hm
      cases hm
    · exact List.forall_mem_singleton.mpr hlive
  | fdReset =>
    -- the node is not touched any more
    have hrank : (s.thread n).rank = 3 := by rw [hp]; rfl
    have hlt : n < s.nextNode := h.lt_nextNode (by omega)
    apply h.move rfl hlt (by rw [hp]; decide)
    · exact fun _ _ => rfl
    · exact fun hlt => absurd hlt (by decide)
    · intro _
      exact h.reset_fd n (by omega)
    · rfl
    · rfl
    · rfl
    · rfl
    · intro m hm
      cases hm
    · exact List.forall_mem_nil _
  | notCreated | ended | joined =>
    exact h.keepQuiet rfl rfl rfl (List.suffix_refl _) rfl rfl rfl (List.forall_mem_nil _)

end Steps

end ProvenAesd.Server
