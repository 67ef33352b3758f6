import ProvenAesd.SocketSession

/-! When the bytes that lie behind a chunk, left over from an earlier one or never
written, have a say in what the server does with it. -/
namespace ProvenAesd.Server
open Mealy Driver

theorem strncmpEq_iff (mem : List UInt8) {key : List UInt8} (hkey : ∀ b ∈ key, b ≠ 0) :
    strncmpEq mem key key.length = true ↔ key <+: mem := by
  induction key generalizing mem with
  | nil => simp [strncmpEq]
  | cons k key ih =>
    have hk : k ≠ 0 := hkey k List.mem_cons_self
    have hrest : ∀ b ∈ key, b ≠ 0 := fun b hb => hkey b (List.mem_cons_of_mem k hb)
    cases mem with
    | nil =>
      -- the end of memory compares as NUL
      have hne : (0 : UInt8) ≠ k := Ne.symm hk
      simp [strncmpEq, hne]
    | cons m mem =>
      rw [List.cons_prefix_cons, ← ih mem hrest]
      simp only [List.length_cons, strncmpEq, List.headD_cons, List.tail_cons, Bool.and_eq_true,
        beq_iff_eq, Bool.or_eq_true]
      constructor
      · rintro ⟨rfl, hzero | hrun⟩
        · exact absurd hzero hk
        · exact ⟨rfl, hrun⟩
      · rintro ⟨rfl, hrun⟩
        exact ⟨rfl, Or.inr hrun⟩

theorem seekTest_iff (mem : List UInt8) :
    strncmpEq mem seekPrefix 19 = true ↔ seekPrefix <+: mem :=
  strncmpEq_iff mem (by decide +kernel)

/-! The scan as it meets the bytes behind the chunk. -/

@[simp] theorem scanFrom_append (p : ScanPhase × AesdSeekto) (xs ys : List UInt8) :
    scanFrom p (xs ++ ys) = scanFrom (scanFrom p xs) ys := List.foldl_append

@[simp] theorem scanFrom_cons (p : ScanPhase × AesdSeekto) (b : UInt8) (bytes : List UInt8) :
    scanFrom p (b :: bytes) = scanFrom (scanByte p b) bytes := rfl

/-- The course of the scan does not depend on what the fields held before. -/
theorem scanFrom_phase (p : ScanPhase) (seekto : AesdSeekto) (bytes : List UInt8) :
    (scanFrom (p, seekto) bytes).1 = bytes.foldl scanPhase p := by
  induction bytes generalizing p seekto with
  | nil => rfl
  | cons b bytes ih => exact ih _ _

/-- A number that has been read stands in its field. -/
theorem scanFrom_stored (p : ScanPhase × AesdSeekto) (hp : storeNumber p.2 p.1 = p.2)
    (bytes : List UInt8) :
    storeNumber (scanFrom p bytes).2 (scanFrom p bytes).1 = (scanFrom p bytes).2 := by
  induction bytes generalizing p with
  | nil => exact hp
  | cons b bytes ih =>
    apply ih
    have hidem (seekto : AesdSeekto) (q : ScanPhase) :
        storeNumber (storeNumber seekto q) q = storeNumber seekto q := by
      rcases q with _ | _ | _ | ⟨second, neg, value⟩ | _
      case digits => cases second <;> rfl
      all_goals rfl
    exact hidem p.2 (scanPhase p.1 b)

theorem scanFrom_done (seekto : AesdSeekto) (bytes : List UInt8) :
    scanFrom (.done, seekto) bytes = (.done, seekto) := by
  induction bytes with
  | nil => rfl
  | cons b bytes ih => exact ih

theorem succ_ne_self (x : UInt32) : x+1 ≠ x := by
  intro hx
  have hone : x+1 = x+0 := by rw [hx, add_zero]
  exact absurd (add_left_cancel hone) (by decide)

/-- Below the limit two numbers in a row are stored differently. -/
theorem storedInt_succ_ne {neg : Bool} {n : ℕ} (h : n+1 ≤ longLimit neg) :
    storedInt neg (n+1) ≠ storedInt neg n := by
  have hn : min n (longLimit neg) = n := by omega
  have hs : min (n+1) (longLimit neg) = n+1 := by omega
  intro he
  cases neg with
  | false =>
    simp only [storedInt, hn, hs, Nat.cast_add, Nat.cast_one, Bool.false_eq_true, if_false] at he
    rw [UInt32.ofInt_add] at he
    exact succ_ne_self _ he
  | true =>
    simp only [storedInt, hn, hs, Nat.cast_add, Nat.cast_one, if_true] at he
    apply succ_ne_self (UInt32.ofInt (-((n : ℤ)+1)))
    calc
      UInt32.ofInt (-((n : ℤ)+1))+1 = UInt32.ofInt (-((n : ℤ)+1)+1) := by
        rw [UInt32.ofInt_add]
        rfl
      _ = UInt32.ofInt (-(n : ℤ)) := by
        congr 1
        omega
      _ = UInt32.ofInt (-((n : ℤ)+1)) := he.symm

theorem storedInt_of_limit_le {neg : Bool} {n : ℕ} (h : longLimit neg ≤ n) :
    storedInt neg n = storedInt neg (longLimit neg) := by
  simp only [storedInt, min_eq_right h, min_self]

/-- No further digit changes what is stored for the number. -/
def Saturated (neg : Bool) (value : ℕ) : Prop :=
  ∀ d < 10, storedInt neg (10*value+d) = storedInt neg value

instance (neg : Bool) (value : ℕ) : Decidable (Saturated neg value) :=
  inferInstanceAs (Decidable (∀ d < 10, _))

theorem Saturated.limit_le {neg : Bool} {value : ℕ} (h : Saturated neg value) :
    longLimit neg ≤ 10*value := by
  by_contra hlt
  have hne : storedInt neg (10*value+1) ≠ storedInt neg (10*value) :=
    storedInt_succ_ne (by omega)
  apply hne
  calc
    storedInt neg (10*value+1) = storedInt neg value := h 1 (by decide)
    _ = storedInt neg (10*value) := (h 0 (by decide)).symm

theorem Saturated.digit {neg : Bool} {value : ℕ} (h : Saturated neg value) (d : ℕ) :
    Saturated neg (10*value+d) := by
  have hlim := h.limit_le
  intro d' _
  rw [storedInt_of_limit_le (n := 10*(10*value+d)+d') (by omega),
    storedInt_of_limit_le (n := 10*value+d) (by omega)]

/-- The scan has come to a point from which no byte can change the outcome. -/
def ScanSettled : ScanPhase → Prop
  | .done => True
  | .digits true neg value => Saturated neg value
  | _ => False

instance : (p : ScanPhase) → Decidable (ScanSettled p)
  | .done => inferInstanceAs (Decidable True)
  | .digits true neg value => inferInstanceAs (Decidable (Saturated neg value))
  | .digits false _ _ | .name _ | .space _ | .sign _ _ => inferInstanceAs (Decidable False)

theorem digitValue_lt {b : UInt8} (h : isDigit b = true) : digitValue b < 10 := by
  simp only [isDigit, Bool.and_eq_true, decide_eq_true_eq] at h
  have hle : b.toNat ≤ 57 := h.2
  unfold digitValue
  omega

theorem digit_byte {d : ℕ} (hd : d < 10) :
    isDigit (UInt8.ofNat (48+d)) = true ∧ digitValue (UInt8.ofNat (48+d)) = d := by
  interval_cases d <;> decide

theorem scanFrom_settled {p : ScanPhase} (hp : ScanSettled p) {seekto : AesdSeekto}
    (hst : storeNumber seekto p = seekto) (stale : List UInt8) :
    (scanFrom (p, seekto) stale).2 = seekto := by
  induction stale generalizing p with
  | nil => rfl
  | cons b stale ih =>
    cases p with
    | done => exact congrArg Prod.snd (scanFrom_done seekto (b :: stale))
    | digits second neg value =>
      cases second with
      | false => exact hp.elim
      | true =>
        have hsat : Saturated neg value := hp
        by_cases hb : isDigit b = true
        · -- one more digit, which is read and makes no difference
          have hnext : scanPhase (.digits true neg value) b =
              .digits true neg (10*value+digitValue b) := by simp [scanPhase, hb]
          have hsame : storeNumber seekto (.digits true neg (10*value+digitValue b)) = seekto := by
            rw [← hst]
            simp only [storeNumber]
            rw [hsat _ (digitValue_lt hb)]
          rw [scanFrom_cons, scanByte, hnext, hsame]
          exact ih (p := .digits true neg (10*value+digitValue b)) (hsat.digit _) hsame
        · have hnext : scanPhase (.digits true neg value) b = .done := by simp [scanPhase, hb]
          rw [scanFrom_cons, scanByte, hnext]
          exact congrArg Prod.snd (scanFrom_done seekto stale)
    | _ => exact hp.elim

/-- Anywhere else two continuations lead to different numbers. -/
theorem exists_stale_of_not_settled {p : ScanPhase} (hp : ¬ScanSettled p) (seekto : AesdSeekto)
    (hst : storeNumber seekto p = seekto) :
    ∃ stale stale', (scanFrom (p, seekto) stale).2 ≠ (scanFrom (p, seekto) stale').2 := by
  have hfive (neg : Bool) : storedInt neg 5 ≠ storedInt neg 6 := by cases neg <;> decide
  cases p with
  | name nonempty =>
    refine ⟨[97, 58, 53], [97, 58, 54], fun h => ?_⟩
    exact hfive false (congrArg AesdSeekto.writeCmd h)
  | space second =>
    refine ⟨[53], [54], fun h => ?_⟩
    cases second with
    | false => exact hfive false (congrArg AesdSeekto.writeCmd h)
    | true => exact hfive false (congrArg AesdSeekto.writeCmdOffset h)
  | sign second neg =>
    refine ⟨[53], [54], fun h => ?_⟩
    cases second with
    | false => exact hfive neg (congrArg AesdSeekto.writeCmd h)
    | true => exact hfive neg (congrArg AesdSeekto.writeCmdOffset h)
  | digits second neg value =>
    cases second with
    | false =>
      -- behind the first number a comma starts the second one
      refine ⟨[44, 53], [44, 54], fun h => ?_⟩
      exact hfive false (congrArg AesdSeekto.writeCmdOffset h)
    | true =>
      obtain ⟨d, hd, hne⟩ : ∃ d, d < 10 ∧ storedInt neg (10*value+d) ≠ storedInt neg value := by
        simpa [ScanSettled, Saturated] using hp
      obtain ⟨hdigit, hvalue⟩ := digit_byte hd
      have hnext : scanPhase (.digits true neg value) (UInt8.ofNat (48+d)) =
          .digits true neg (10*value+d) := by
        simp only [scanPhase, hdigit, if_true, hvalue]
      refine ⟨[UInt8.ofNat (48+d)], [], fun h => hne ?_⟩
      rw [scanFrom_cons, scanByte, hnext] at h
      have hnew : storedInt neg (10*value+d) = seekto.writeCmdOffset :=
        congrArg AesdSeekto.writeCmdOffset h
      have hold : storedInt neg value = seekto.writeCmdOffset :=
        congrArg AesdSeekto.writeCmdOffset hst
      rw [hnew, hold]
  | done => exact absurd trivial hp

/-- The chunk alone decides what the server does with it: it is too long to be
completed to the prefix or differs from it, and where it starts with the prefix
the scan ends inside it. -/
def SelfContained (chunk : List UInt8) : Prop :=
  (seekPrefix.length ≤ chunk.length ∨ ¬chunk <+: seekPrefix) ∧
    (seekPrefix <+: chunk → ScanSettled (chunk.foldl scanPhase (.name false)))

instance (chunk : List UInt8) : Decidable (SelfContained chunk) :=
  inferInstanceAs (Decidable (_ ∧ _))

theorem chunkAction_of_seek {mem : List UInt8} (h : seekPrefix <+: mem) (rcvd : ℕ)
    (seekto : AesdSeekto) : chunkAction mem rcvd seekto = .seek (sscanfSeekto mem seekto) := by
  rw [chunkAction, if_pos ((seekTest_iff mem).mpr h)]

theorem chunkAction_of_data {mem : List UInt8} (h : ¬seekPrefix <+: mem) (rcvd : ℕ)
    (seekto : AesdSeekto) : chunkAction mem rcvd seekto = .data (mem.take rcvd) := by
  rw [chunkAction, if_neg (mt (seekTest_iff mem).mp h)]

/-- A chunk that is not the start of the prefix is not completed to it. -/
theorem prefix_append_iff {chunk : List UInt8}
    (h : seekPrefix.length ≤ chunk.length ∨ ¬chunk <+: seekPrefix) (stale : List UInt8) :
    seekPrefix <+: chunk ++ stale ↔ seekPrefix <+: chunk := by
  constructor
  · intro hp
    rcases h with hlen | hne
    · exact List.prefix_of_prefix_length_le hp (List.prefix_append chunk stale) hlen
    · rcases List.prefix_or_prefix_of_prefix hp (List.prefix_append chunk stale) with h | h
      · exact h
      · exact absurd h hne
  · intro hp
    exact hp.trans (List.prefix_append chunk stale)

theorem sscanf_append {chunk : List UInt8}
    (h : ScanSettled (chunk.foldl scanPhase (.name false))) (stale : List UInt8)
    (seekto : AesdSeekto) : sscanfSeekto (chunk ++ stale) seekto = sscanfSeekto chunk seekto := by
  have hphase := scanFrom_phase (.name false) seekto chunk
  have hst := scanFrom_stored (.name false, seekto) rfl chunk
  -- the scan is settled at the end of the chunk
  rw [← hphase] at h
  unfold sscanfSeekto
  rw [scanFrom_append]
  exact scanFrom_settled h hst stale

theorem chunkAction_of_selfContained {chunk : List UInt8} (h : SelfContained chunk)
    (stale : List UInt8) (seekto : AesdSeekto) :
    chunkAction (chunk ++ stale) chunk.length seekto = chunkAction chunk chunk.length seekto := by
  by_cases hp : seekPrefix <+: chunk
  · rw [chunkAction_of_seek ((prefix_append_iff h.1 stale).mpr hp), chunkAction_of_seek hp,
      sscanf_append (h.2 hp)]
  · rw [chunkAction_of_data (mt (prefix_append_iff h.1 stale).mp hp),
      chunkAction_of_data hp, List.take_left, List.take_length]

/-- For any other chunk two contents of the memory behind it lead to different actions. -/
theorem exists_stale_of_not_selfContained {chunk : List UInt8} (h : ¬SelfContained chunk)
    (seekto : AesdSeekto) :
    ∃ stale stale', chunkAction (chunk ++ stale) chunk.length seekto ≠
      chunkAction (chunk ++ stale') chunk.length seekto := by
  by_cases hlen : seekPrefix.length ≤ chunk.length ∨ ¬chunk <+: seekPrefix
  · have hscan : ¬(seekPrefix <+: chunk → ScanSettled (chunk.foldl scanPhase (.name false))) :=
      fun hs => h ⟨hlen, hs⟩
    obtain ⟨hp, hset⟩ := Classical.not_imp.mp hscan
    rw [← scanFrom_phase (.name false) seekto chunk] at hset
    obtain ⟨stale, stale', hne⟩ := exists_stale_of_not_settled hset _
      (scanFrom_stored (.name false, seekto) rfl chunk)
    refine ⟨stale, stale', fun he => hne ?_⟩
    rw [chunkAction_of_seek (hp.trans (List.prefix_append chunk stale)),
      chunkAction_of_seek (hp.trans (List.prefix_append chunk stale'))] at he
    have hseek := ServerAction.seek.inj he
    rwa [sscanfSeekto, sscanfSeekto, scanFrom_append, scanFrom_append] at hseek
  · -- the rest of the prefix may or may not lie behind the chunk
    obtain ⟨hshort, hstart⟩ := not_or.mp hlen
    obtain ⟨rest, hrest⟩ := not_not.mp hstart
    have hnot : ¬seekPrefix <+: chunk ++ [] := by
      intro hp
      rw [List.append_nil] at hp
      exact hshort hp.length_le
    refine ⟨rest, [], fun he => ?_⟩
    rw [chunkAction_of_seek (by rw [hrest]), chunkAction_of_data hnot] at he
    cases he

/-- The receive loop, with any bytes behind each chunk in the buffer. -/
def staleReceiver : Machine Session (Recv × List UInt8) (Option ServerAction) where
  step s rb := receiver.step { s with buf := rb.1.chunk.bytes ++ rb.2 } rb.1

/-- What a buffer that is filled again and again has behind each of its chunks. -/
def staleBehind : List UInt8 → List Recv → List (List UInt8)
  | _, [] => []
  | buf, r :: rs => buf.drop r.chunk.rcvd :: staleBehind (recvInto buf r.chunk) rs

/-- A chunk that is received while the session goes on is self-contained. -/
def DecidesAlone (s : Session) (rb : Recv × List UInt8) : Prop :=
  s.phase = .receiving → SelfContained rb.1.chunk.bytes

/-- The session but for its buffer. -/
def Session.apart (s : Session) : Session := { s with buf := [] }

@[simp] theorem recvInto_behind (chunk : Chunk) (stale : List UInt8) :
    recvInto (chunk.bytes ++ stale) chunk = chunk.bytes ++ stale := by
  simp [recvInto, Chunk.rcvd]

theorem recvCall_behind (r : Recv) (stale : List UInt8) :
    recvCall (r.chunk.bytes ++ stale) r = recvCall r.chunk.bytes r := by
  simp [recvCall, Chunk.rcvd]

theorem staleStep_receiving {s : Session} (h : s.phase = .receiving) (r : Recv)
    (stale : List UInt8) :
    staleReceiver.step s (r, stale) =
      (receive { s with buf := r.chunk.bytes ++ stale } r,
        some (chunkAction (r.chunk.bytes ++ stale) r.chunk.rcvd s.seekto)) := by
  simp only [staleReceiver, receiver, h, recvInto_behind]

theorem staleStep_idle {s : Session} (h : s.phase ≠ .receiving) (r : Recv) (stale : List UInt8) :
    staleReceiver.step s (r, stale) = ({ s with buf := r.chunk.bytes ++ stale }, none) := by
  cases hp : s.phase with
  | receiving => exact absurd hp h
  | replying | exited => simp only [staleReceiver, receiver, hp]

/-- The turn for a self-contained chunk, whatever is behind it. -/
theorem receive_stale {r : Recv} (h : SelfContained r.chunk.bytes) (s : Session)
    (stale : List UInt8) :
    (receive { s with buf := r.chunk.bytes ++ stale } r).apart =
      (receive { s with buf := r.chunk.bytes } r).apart := by
  have haction := chunkAction_of_selfContained h stale s.seekto
  have hinto : recvInto r.chunk.bytes r.chunk = r.chunk.bytes := by
    simpa using recvInto_behind r.chunk []
  simp only [receive, recvInto_behind, hinto, recvCall_behind]
  rw [Chunk.rcvd, haction]
  cases chunkAction r.chunk.bytes r.chunk.bytes.length s.seekto with
  | seek seekto => rfl
  | data bytes => rfl

/-- A turn in which the chunk decides alone does not depend on the bytes behind it. -/
theorem staleStep_congr {s t : Session} (hst : s.apart = t.apart) {r : Recv} {b : List UInt8}
    (h : DecidesAlone s (r, b)) (stale : List UInt8) :
    (staleReceiver.step s (r, [])).1.apart = (staleReceiver.step t (r, stale)).1.apart ∧
      (staleReceiver.step s (r, [])).2 = (staleReceiver.step t (r, stale)).2 := by
  -- the buffer that the turn finds is filled anew
  have hrefill : staleReceiver.step t (r, stale) = staleReceiver.step s (r, stale) := by
    change staleReceiver.step t.apart (r, stale) = staleReceiver.step s.apart (r, stale)
    rw [hst]
  rw [hrefill]
  by_cases hphase : s.phase = .receiving
  · have hself : SelfContained r.chunk.bytes := h hphase
    rw [staleStep_receiving hphase, staleStep_receiving hphase, receive_stale hself,
      receive_stale hself]
    refine ⟨rfl, congrArg some ?_⟩
    exact (chunkAction_of_selfContained hself [] s.seekto).trans
      (chunkAction_of_selfContained hself stale s.seekto).symm
  · rw [staleStep_idle hphase, staleStep_idle hphase]
    exact ⟨rfl, rfl⟩

/-- As long as its chunks decide alone, a session does the same whatever is behind them. -/
theorem staleRun_congr {rs : List Recv} :
    ∀ {s t : Session} {stale : List (List UInt8)}, s.apart = t.apart → stale.length = rs.length →
      staleReceiver.Guarded DecidesAlone s (rs.map fun r => (r, [])) →
      staleReceiver.outputs t (rs.zip stale) =
        staleReceiver.outputs s (rs.map fun r => (r, [])) := by
  induction rs with
  | nil => exact fun _ _ _ => rfl
  | cons r rs ih =>
    intro s t stale hst hlen hguard
    obtain ⟨b, stale, rfl⟩ := List.exists_cons_of_length_eq_add_one hlen
    obtain ⟨hnext, hout⟩ := staleStep_congr hst hguard.1 b
    rw [List.zip_cons_cons, List.map_cons, Machine.outputs_cons, Machine.outputs_cons, hout,
      ih hnext (Nat.succ_injective hlen) hguard.2]

/-- Two sessions whose chunks do not all decide alone can part at the first that does not. -/
theorem decidesAlone_of_congr {rs : List Recv} :
    ∀ {s : Session}, (∀ stale stale' : List (List UInt8), stale.length = rs.length →
        stale'.length = rs.length →
        staleReceiver.outputs s (rs.zip stale) = staleReceiver.outputs s (rs.zip stale')) →
      staleReceiver.Guarded DecidesAlone s (rs.map fun r => (r, [])) := by
  induction rs with
  | nil => exact fun _ => trivial
  | cons r rs ih =>
    intro s hall
    constructor
    · -- put the two contents behind the first chunk
      intro hphase
      by_contra hnot
      obtain ⟨bytes, bytes', hne⟩ := exists_stale_of_not_selfContained hnot s.seekto
      have h := hall (bytes :: rs.map fun _ => []) (bytes' :: rs.map fun _ => []) (by simp) (by simp)
      rw [List.zip_cons_cons, List.zip_cons_cons, Machine.outputs_cons, Machine.outputs_cons,
        staleStep_receiving hphase, staleStep_receiving hphase] at h
      exact hne (Option.some.inj (List.cons.inj h).1)
    · -- with nothing behind this chunk the sessions still agree on the later ones
      apply ih
      intro stale stale' hlen hlen'
      have h := hall ([] :: stale) ([] :: stale') (congrArg (·+1) hlen) (congrArg (·+1) hlen')
      rw [List.zip_cons_cons, List.zip_cons_cons, Machine.outputs_cons, Machine.outputs_cons] at h
      exact (List.cons.inj h).2

/-- The turn of the receive loop is one with what the buffer holds behind the chunk. -/
theorem receiver_step_stale (s : Session) (r : Recv) :
    (receiver.step s r).2 = (staleReceiver.step s (r, s.buf.drop r.chunk.rcvd)).2 ∧
      (s.phase = .receiving →
        receiver.step s r = staleReceiver.step s (r, s.buf.drop r.chunk.rcvd)) := by
  have hbuf : recvInto (r.chunk.bytes ++ s.buf.drop r.chunk.rcvd) r.chunk =
      recvInto s.buf r.chunk := recvInto_behind r.chunk _
  cases hp : s.phase with
  | receiving =>
    have hstep : receiver.step s r = staleReceiver.step s (r, s.buf.drop r.chunk.rcvd) := by
      simp only [staleReceiver, receiver, hp, receive, hbuf]
    exact ⟨congrArg Prod.snd hstep, fun _ => hstep⟩
  | replying | exited =>
    refine ⟨?_, fun h => absurd h (by decide)⟩
    simp only [staleReceiver, receiver, hp]

theorem staleRun_idle {rs : List Recv} :
    ∀ {s t : Session} {stale : List (List UInt8)}, s.phase ≠ .receiving → t.phase ≠ .receiving →
      stale.length = rs.length →
      receiver.outputs s rs = staleReceiver.outputs t (rs.zip stale) := by
  induction rs with
  | nil => exact fun _ _ _ => rfl
  | cons r rs ih =>
    intro s t stale hs ht hlen
    obtain ⟨b, stale, rfl⟩ := List.exists_cons_of_length_eq_add_one hlen
    have hstep : receiver.step s r = (s, none) := by
      cases hp : s.phase with
      | receiving => exact absurd hp hs
      | replying | exited => simp only [receiver, hp]
    rw [List.zip_cons_cons, Machine.outputs_cons, Machine.outputs_cons, hstep, staleStep_idle ht]
    exact congrArg (none :: ·) (ih hs ht (Nat.succ_injective hlen))

@[simp] theorem staleBehind_length (buf : List UInt8) (rs : List Recv) :
    (staleBehind buf rs).length = rs.length := by
  induction rs generalizing buf with
  | nil => rfl
  | cons r rs ih => exact congrArg (·+1) (ih _)

/-- The runs of the receive loop are among those with any bytes behind the chunks. -/
theorem receiver_outputs_stale (rs : List Recv) :
    ∀ s : Session, receiver.outputs s rs =
      staleReceiver.outputs s (rs.zip (staleBehind s.buf rs)) := by
  induction rs with
  | nil => exact fun _ => rfl
  | cons r rs ih =>
    intro s
    obtain ⟨hout, hstep⟩ := receiver_step_stale s r
    by_cases hphase : s.phase = .receiving
    · have hbuf : (receiver.step s r).1.buf = recvInto s.buf r.chunk := by
        simp only [receiver, hphase]
        exact (receive_next s r).1
      rw [staleBehind, List.zip_cons_cons, Machine.outputs_cons, Machine.outputs_cons, ih, hbuf,
        hstep hphase]
    · exact staleRun_idle hphase hphase (by simp)

/-- What a session does with what it receives is a function of its chunks exactly when
every chunk that it receives before it ends is self-contained. The receive loop is such a
session whatever its buffer has held before. -/
theorem actions_depend_on_chunks_iff (s : Session) (rs : List Recv) :
    ((∀ stale stale' : List (List UInt8), stale.length = rs.length → stale'.length = rs.length →
        staleReceiver.outputs s (rs.zip stale) = staleReceiver.outputs s (rs.zip stale')) ↔
      staleReceiver.Guarded DecidesAlone s (rs.map fun r => (r, []))) ∧
    ∀ buf, receiver.outputs { s with buf } rs =
      staleReceiver.outputs s (rs.zip (staleBehind buf rs)) := by
  constructor
  · constructor
    · exact decidesAlone_of_congr
    · intro hguard stale stale' hlen hlen'
      rw [staleRun_congr rfl hlen hguard, staleRun_congr rfl hlen' hguard]
  · intro buf
    rw [receiver_outputs_stale]
    cases rs with
    | nil => rfl
    | cons r rs => rfl

/-- "xESDCHAR_IOCSEEKTO:1,2" -/
def almostSeek : Recv where
  chunk := ⟨120 :: seekPrefix.tail ++ [49, 44, 50], by simp, by decide⟩
  notCopied := 0
  alloc := .grant true fun _ => 0
  stray := 0

/-- "A" -/
def letterA : Recv := { almostSeek with chunk := ⟨[65], by simp, by decide⟩ }

/-- The letter "A" is data in a buffer that holds nothing else, and a seek to (1, 2)
where an earlier chunk, or an earlier use of its memory, has left the rest of one. -/
theorem letter_completes_stale_seek :
    let start (buf : List UInt8) : Session := Session.start aesdInitModule buf ⟨0, 0⟩
    let left := almostSeek.chunk.bytes
    receiver.outputs (start []) [letterA] = [some (.data [65])] ∧
      receiver.outputs (start left) [letterA] = [some (.seek ⟨1, 2⟩)] ∧
      receiver.outputs (start []) [almostSeek, letterA] =
        [some (.data left), some (.seek ⟨1, 2⟩)] ∧
      ¬∀ stale stale' : List (List UInt8), stale.length = 1 → stale'.length = 1 →
        staleReceiver.outputs (start []) ([letterA].zip stale) =
          staleReceiver.outputs (start []) ([letterA].zip stale') := by
  intro start left
  refine ⟨by decide +kernel, by decide +kernel, by decide +kernel, fun h => ?_⟩
  have hdata : staleReceiver.outputs (start []) ([letterA].zip [[]]) = [some (.data [65])] := by
    decide +kernel
  have hseek : staleReceiver.outputs (start []) ([letterA].zip [left.tail]) =
      [some (.seek ⟨1, 2⟩)] := by
    decide +kernel
  have hsame := h [[]] [left.tail] rfl rfl
  rw [hdata, hseek] at hsame
  exact absurd hsame (by decide)

end ProvenAesd.Server
