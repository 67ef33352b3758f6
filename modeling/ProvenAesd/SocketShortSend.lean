import ProvenAesd.SocketReply

/-! The reply loop next to what it reads from the device: what `send` does not take
of a piece is not sent again. -/
namespace ProvenAesd.Server
open ConcatOffset Driver Driver.DriverState

/-- What the reads of the reply loop deliver, turn by turn. -/
def replyReads (env : ReplyEnv) : (fuel i : ℕ) → DriverState → ℕ → List (List UInt8)
  | 0, _, _, _ => []
  | fuel+1, i, dev, fpos =>
    let o := aesdRead dev fpos ⟨bufSize, env.copyFault i⟩
    if o.retval > 0 then
      o.data ::
        match env.send i o.data with
        | none => []
        | some _ => replyReads env fuel (i+1) o.state o.fpos
    else []

namespace ReplyEnv

variable (env : ReplyEnv)

/-- Of the pieces that are left from turn `i` on, those that come before a read
that faults. -/
def delivered (i : ℕ) : List (List UInt8) → List (List UInt8)
  | [] => []
  | piece :: pieces => if env.copyFault i then [] else piece :: delivered (i+1) pieces

/-- What the socket accepts when the pieces are sent from turn `i` on. -/
def accepted (i : ℕ) : List (List UInt8) → List UInt8
  | [] => []
  | piece :: pieces => piece.take ((env.send i piece).getD 0) ++ accepted (i+1) pieces

/-- A stream socket takes one byte at least, and at most all. -/
structure Posix : Prop where
  takes : ∀ i data, data ≠ [] → ∃ n, env.send i data = some n ∧ 1 ≤ n ∧ n ≤ data.length

end ReplyEnv

def replyPieces (dev : DriverState) (fpos : ℕ) : List (List UInt8) :=
  piecesFrom dev.liveBytes bufSize dev.liveBytes.flatten.length fpos

section Pieces

variable {env : ReplyEnv}

theorem delivered_fault {i : ℕ} (h : env.copyFault i = true) (piece : List UInt8)
    (pieces : List (List UInt8)) : env.delivered i (piece :: pieces) = [] := if_pos h

theorem delivered_cons {i : ℕ} (h : env.copyFault i = false) (piece : List UInt8)
    (pieces : List (List UInt8)) :
    env.delivered i (piece :: pieces) = piece :: env.delivered (i+1) pieces := by
  rw [ReplyEnv.delivered, h]
  rfl

theorem accepted_length_le (env : ReplyEnv) (i : ℕ) (pieces : List (List UInt8)) :
    (env.accepted i pieces).length ≤ pieces.flatten.length := by
  induction pieces generalizing i with
  | nil => exact le_rfl
  | cons piece pieces ih =>
    rw [ReplyEnv.accepted, List.length_append, List.flatten_cons, List.length_append]
    exact Nat.add_le_add (List.length_take_le' ..) (ih (i+1))

/-- Nothing is missing just when every piece was taken whole. -/
theorem accepted_eq_iff (hposix : env.Posix) {pieces : List (List UInt8)}
    (hne : ∀ piece ∈ pieces, piece ≠ []) (i : ℕ) :
    env.accepted i pieces = pieces.flatten ↔
      ∀ k (h : k < pieces.length), env.send (i+k) pieces[k] = some pieces[k].length := by
  induction pieces generalizing i with
  | nil => simp [ReplyEnv.accepted]
  | cons piece pieces ih =>
    obtain ⟨n, hsend, -, hle⟩ := hposix.takes i piece (hne piece List.mem_cons_self)
    have hrest := ih (fun p hp => hne p (List.mem_cons_of_mem piece hp)) (i+1)
    have hlen := accepted_length_le env (i+1) pieces
    rw [ReplyEnv.accepted, hsend, Option.getD_some, List.flatten_cons]
    constructor
    · intro he
      -- the bytes that a short send leaves out cannot be made up for
      have hcount := congrArg List.length he
      rw [List.length_append, List.length_append, List.length_take, min_eq_left hle] at hcount
      obtain rfl : n = piece.length := by omega
      rw [List.take_length] at he
      have hall := hrest.mp (List.append_cancel_left he)
      intro k hk
      cases k with
      | zero => exact hsend
      | succ k =>
        have hk' := hall k (Nat.lt_of_succ_lt_succ hk)
        rwa [Nat.add_right_comm, Nat.add_assoc] at hk'
    · intro hall
      have hwhole : some n = some piece.length := hsend.symm.trans (hall 0 (Nat.succ_pos _))
      rw [Option.some.inj hwhole, List.take_length]
      congr 1
      apply hrest.mpr
      intro k hk
      have hk' := hall (k+1) (Nat.succ_lt_succ hk)
      rwa [← Nat.add_assoc, Nat.add_right_comm] at hk'

theorem delivered_ne_nil {pieces : List (List UInt8)} (hne : ∀ piece ∈ pieces, piece ≠ [])
    (i : ℕ) : ∀ piece ∈ env.delivered i pieces, piece ≠ [] := by
  induction pieces generalizing i with
  | nil => exact hne
  | cons piece pieces ih =>
    have hrest : ∀ p ∈ pieces, p ≠ [] := fun p hp => hne p (List.mem_cons_of_mem piece hp)
    intro p hp
    cases hfault : env.copyFault i with
    | true =>
      rw [delivered_fault hfault] at hp
      cases hp
    | false =>
      rw [delivered_cons hfault] at hp
      rcases List.mem_cons.mp hp with rfl | hp
      · exact hne p List.mem_cons_self
      · exact ih hrest (i+1) p hp

/-- Without a fault the pieces are all read. -/
theorem delivered_of_no_fault (h : ∀ i, env.copyFault i = false) (i : ℕ)
    (pieces : List (List UInt8)) : env.delivered i pieces = pieces := by
  induction pieces generalizing i with
  | nil => rfl
  | cons piece pieces ih => rw [delivered_cons (h i), ih]

end Pieces

theorem piecesFrom_ne_nil (xs : List (List UInt8)) (fuel p : ℕ) :
    ∀ piece ∈ piecesFrom xs bufSize fuel p, piece ≠ [] := by
  induction fuel generalizing p with
  | zero =>
    intro piece hp
    cases hp
  | succ fuel ih =>
    unfold piecesFrom
    split
    · rename_i hlt
      intro piece hp
      rcases List.mem_cons.mp hp with rfl | hp
      · exact List.length_pos_iff.mp (pieceAt_length_pos hlt (by decide))
      · exact ih _ piece hp
    · intro piece hp
      cases hp

/-- A turn of the loop takes the first of the pieces that are left, unless its read
faults or there are none. The induction is on the fuel of the loop. -/
theorem replyLoop_pieces {env : ReplyEnv} (hposix : env.Posix) (fuel : ℕ) :
    ∀ i dev fpos, DeviceWf dev → fpos+1 < 2^64 → dev.liveBytes.flatten.length-fpos ≤ fuel →
      replyReads env (fuel+1) i dev fpos =
          env.delivered i (piecesFrom dev.liveBytes bufSize fuel fpos) ∧
        ∃ dev', replyLoop env (fuel+1) i dev fpos = some ⟨false,
          env.accepted i (env.delivered i (piecesFrom dev.liveBytes bufSize fuel fpos)), dev'⟩ := by
  induction fuel with
  | zero =>
    intro i dev fpos hwf hp hfuel
    simp only [replyReads, replyLoop]
    rcases read_cases hwf hp ⟨bufSize, env.copyFault i⟩ with he | hf | hd
    · rw [he.retval_eq, if_neg (by decide), if_neg (by decide)]
      exact ⟨rfl, _, rfl⟩
    · have hbefore := hf.before_end
      omega
    · have hbefore := hd.before_end
      omega
  | succ fuel ih =>
    intro i dev fpos hwf hp hfuel
    have hwf' := read_wf hwf fpos ⟨bufSize, env.copyFault i⟩
    rw [replyReads, replyLoop]
    unfold piecesFrom
    rcases read_cases hwf hp ⟨bufSize, env.copyFault i⟩ with he | hf | hd
    -- the end of the data, a fault, or a piece
    · simp only [he.retval_eq, if_neg (by decide : ¬(0 : ℤ) > 0), if_neg (not_lt.mpr he.at_end)]
      exact ⟨rfl, _, rfl⟩
    · simp only [hf.retval_eq, if_neg (by decide : ¬-EFAULT > 0), if_pos hf.before_end,
        delivered_fault hf.fault]
      exact ⟨trivial, _, rfl⟩
    · have htotal := hwf.total_lt
      have hbefore := hd.before_end
      have hlive := read_liveBytes dev fpos ⟨bufSize, env.copyFault i⟩
      have hpos := pieceAt_length_pos hbefore (by decide : 0 < bufSize)
      have hfits := (pieceAt_segment dev.liveBytes fpos bufSize).length_le
      rw [List.length_drop] at hfits
      have hfpos := hd.fpos_eq
      have hretval := hd.retval_eq
      simp only [hd.data_eq] at hfpos hretval
      have hgt : (aesdRead dev fpos ⟨bufSize, env.copyFault i⟩).retval > 0 := by
        rw [hretval]
        omega
      obtain ⟨n, hsend, -, -⟩ := hposix.takes i _ (List.length_pos_iff.mp hpos)
      obtain ⟨hreads, dev', hloop⟩ := ih (i+1) _ (aesdRead dev fpos ⟨bufSize, env.copyFault i⟩).fpos
        hwf' (by omega) (by rw [hlive]; omega)
      rw [hlive, hfpos] at hreads hloop
      simp only [if_pos hgt, hd.data_eq, hsend, hfpos, hreads, hloop, if_pos hbefore,
        delivered_cons hd.no_fault, ReplyEnv.accepted, Option.map_some, Option.getD_some]
      exact ⟨trivial, _, rfl⟩

/-- The socket accepts just what the loop has read when every `send` takes its
piece whole: the rest of a command, cut at the size of the buffer. -/
theorem reply_lossless_iff {env : ReplyEnv} (hposix : env.Posix) {dev : DriverState}
    (hs : Reachable dev) {fpos : ℕ} (hp : fpos < 2^63) :
    let reads := replyReads env (replyFuel dev) 0 dev fpos
    let pieces := env.delivered 0 (replyPieces dev fpos)
    reads = pieces ∧
      ((∀ i, env.copyFault i = false) → reads.flatten = dev.liveBytes.flatten.drop fpos) ∧
      ∃ e, replyLoop env (replyFuel dev) 0 dev fpos = some e ∧ e.exited = false ∧
        (e.sent = reads.flatten ↔
          ∀ i (h : i < pieces.length), env.send i pieces[i] = some pieces[i].length) := by
  intro reads pieces
  obtain ⟨hreads, dev', hloop⟩ := replyLoop_pieces hposix dev.liveBytes.flatten.length 0 dev fpos
    hs.wf (by omega) (Nat.sub_le _ _)
  have hpieces : reads = pieces := hreads
  have hne : ∀ piece ∈ pieces, piece ≠ [] := delivered_ne_nil (piecesFrom_ne_nil _ _ _) 0
  refine ⟨hpieces, fun hfault => ?_, _, hloop, rfl, ?_⟩
  · have hall : pieces = replyPieces dev fpos := delivered_of_no_fault hfault 0 _
    rw [hpieces, hall]
    exact piecesFrom_flatten _ (by decide) (Nat.sub_le _ _)
  · rw [hpieces]
    have hiff := accepted_eq_iff hposix hne 0
    simp only [Nat.zero_add] at hiff
    exact hiff

def byteWise : ReplyEnv where
  copyFault := fun _ => false
  send := fun _ _ => some 1

theorem byteWise_posix : byteWise.Posix := by
  constructor
  intro i data hne
  exact ⟨1, rfl, le_rfl, List.length_pos_iff.mpr hne⟩

/-- The device after a write of "%" and a newline. -/
def percentLine : DriverState :=
  driver.final aesdInitModule [.write 0 (plainWrite [37, 10] (by decide))]

theorem reply_lossless_iff_one_line :
    let reads := replyReads byteWise (replyFuel percentLine) 0 percentLine 0
    let pieces := byteWise.delivered 0 (replyPieces percentLine 0)
    ∃ e, replyLoop byteWise (replyFuel percentLine) 0 percentLine 0 = some e ∧ e.exited = false ∧
      (e.sent = reads.flatten ↔
        ∀ i (h : i < pieces.length), byteWise.send i pieces[i] = some pieces[i].length) :=
  (reply_lossless_iff byteWise_posix ⟨_, rfl⟩ (by decide)).2.2

/-- Of the line of two bytes that the loop reads, the client gets the first one. -/
theorem short_send_loses_the_rest :
    Reachable percentLine ∧ byteWise.Posix ∧
      replyReads byteWise (replyFuel percentLine) 0 percentLine 0 = [[37, 10]] ∧
      (replyLoop byteWise (replyFuel percentLine) 0 percentLine 0).map SessionEnd.sent = some [37] ∧
      ¬∀ (env : ReplyEnv) (dev : DriverState) (fpos : ℕ), env.Posix → Reachable dev →
        fpos < 2^63 → ∀ e, replyLoop env (replyFuel dev) 0 dev fpos = some e →
          e.sent = (replyReads env (replyFuel dev) 0 dev fpos).flatten := by
  have hreads : replyReads byteWise (replyFuel percentLine) 0 percentLine 0 = [[37, 10]] := by
    decide +kernel
  have hsent : (replyLoop byteWise (replyFuel percentLine) 0 percentLine 0).map SessionEnd.sent =
      some [37] := by
    decide +kernel
  have hreach : Reachable percentLine := ⟨_, rfl⟩
  refine ⟨hreach, byteWise_posix, hreads, hsent, fun hall => ?_⟩
  obtain ⟨e, he, hshort⟩ := Option.map_eq_some_iff.mp hsent
  have hwhole := hall byteWise percentLine 0 byteWise_posix hreach (by decide) e he
  rw [hreads, hshort] at hwhole
  exact absurd hwhole (by decide)

end ProvenAesd.Server
