import ProvenAesd.SocketOutcome

/-! Whether it matters how TCP cuts a stream into chunks. It does as soon as a newline
is followed by more, or an "A" can meet the rest of the prefix in the buffer. -/
namespace ProvenAesd.Server
open BlockHeap BoundedQueue Mealy Driver Driver.DriverState

/-- However `w` is cut into chunks, the session sends the same and leaves the device
the same, whatever memory holds that nobody has initialised. -/
def SegmentationFree (kernel : FixedSizeLlseek) (dev : DriverState) (w : List UInt8) : Prop :=
  ∀ (m : Surroundings) (chunks chunks' : List Chunk), chunkBytes chunks = w → chunkBytes chunks' = w →
    (sendAndReceive kernel dev (m.client chunks)).map SessionEnd.view =
      (sendAndReceive kernel dev (m.client chunks')).map SessionEnd.view

theorem viewOf_injective : Function.Injective viewOf := by
  rintro ⟨lines, pending⟩ ⟨lines', pending'⟩ h
  have hlines : lines = lines' := congrArg ClientView.live h
  have hpending : pending = pending' := congrArg ClientView.pending h
  rw [hlines, hpending]

theorem packetChunks_eq {chunks : List Chunk} (h : newline ∉ (chunkBytes chunks).dropLast) :
    packetChunks chunks = chunks := by
  have hrecvs : packetRecvs (recvsIn (fun _ _ => 0) chunks) = recvsIn (fun _ _ => 0) chunks := by
    apply packetRecvs_eq
    rw [recvBytes_recvsIn]
    exact h
  have hchunks := congrArg (List.map Recv.chunk) hrecvs
  rwa [packetRecvs_recvsIn, recvsIn_chunks, recvsIn_chunks] at hchunks

theorem bytes_injective : Function.Injective Chunk.bytes := by
  rintro ⟨bytes, hne, hle⟩ ⟨bytes', hne', hle'⟩ h
  obtain rfl : bytes = bytes' := h
  rfl

/-- A stream of at most one byte can be cut in one way only. -/
theorem chunks_unique {w : List UInt8} (hw : w.length ≤ 1) {chunks chunks' : List Chunk}
    (h : chunkBytes chunks = w) (h' : chunkBytes chunks' = w) : chunks = chunks' := by
  have hone (cs : List Chunk) (hcs : chunkBytes cs = w) :
      cs.map Chunk.bytes = if w = [] then [] else [w] := by
    cases cs with
    | nil => rw [← hcs, chunkBytes_nil, if_pos rfl, List.map_nil]
    | cons c cs =>
      have hpos : 0 < c.bytes.length := c.rcvd_pos
      rw [chunkBytes_cons] at hcs
      have hlength : c.bytes.length+(chunkBytes cs).length ≤ 1 := by
        rw [← List.length_append, hcs]
        exact hw
      have hrest : chunkBytes cs = [] := List.eq_nil_of_length_eq_zero (by omega)
      have hnil : cs = [] := by
        by_contra hne
        exact chunkBytes_ne_nil hne hrest
      rw [hrest, List.append_nil] at hcs
      rw [hnil, ← hcs, if_neg c.ne_nil]
      rfl
  apply bytes_injective.list_map
  rw [hone chunks h, hone chunks' h']

/-! Cuts into single bytes and pairs, and the buffers that turn them into seeks. -/

def single (b : UInt8) : Chunk where
  bytes := [b]
  ne_nil := by simp
  le_bufSize := by simp

def pair (a b : UInt8) : Chunk where
  bytes := [a, b]
  ne_nil := by simp
  le_bufSize := by simp [bufSize]

@[simp] theorem chunkBytes_singles (bytes : List UInt8) : chunkBytes (bytes.map single) = bytes := by
  induction bytes with
  | nil => rfl
  | cons b bytes ih => exact congrArg (b :: ·) ih

theorem single_endsPacket {b : UInt8} (h : (single b).endsPacket = true) : b = newline := by
  rw [Chunk.endsPacket_eq_true] at h
  exact Option.some.inj h

theorem packetChunks_singles_append {u : List UInt8} (hu : newline ∉ u) (chunks : List Chunk) :
    packetChunks (u.map single ++ chunks) = u.map single ++ packetChunks chunks := by
  induction u with
  | nil => rfl
  | cons b u ih =>
    rw [List.mem_cons, not_or] at hu
    have hopen : (single b).endsPacket = false := by
      rw [← Bool.not_eq_true]
      intro h
      exact hu.1 (single_endsPacket h).symm
    rw [List.map_cons, List.cons_append, packetChunks, hopen, ih hu.2]
    rfl

theorem dataOnly_of_heads {chunks : List Chunk}
    (h : ∀ chunk ∈ chunks, chunk.bytes.head? ≠ some 65) (buf : List UInt8) : DataOnly buf chunks := by
  induction chunks generalizing buf with
  | nil => trivial
  | cons chunk chunks ih =>
    constructor
    · exact not_seek_of_head (h chunk List.mem_cons_self) buf
    · apply ih
      intro c hc
      exact h c (List.mem_cons_of_mem chunk hc)

/-- A buffer that never holds as many bytes as the prefix has does not start with it. -/
theorem dataOnly_of_short {chunks : List Chunk}
    (h : ∀ chunk ∈ chunks, chunk.bytes.length < seekPrefix.length) {buf : List UInt8}
    (hbuf : buf.length < seekPrefix.length) : DataOnly buf chunks := by
  induction chunks generalizing buf with
  | nil => trivial
  | cons chunk chunks ih =>
    have hchunk := h chunk List.mem_cons_self
    have hlength : (recvInto buf chunk).length < seekPrefix.length := by
      rw [recvInto, List.length_append, List.length_drop, Chunk.rcvd]
      omega
    constructor
    · intro hp
      have hle := hp.length_le
      omega
    · apply ih _ hlength
      intro c hc
      exact h c (List.mem_cons_of_mem chunk hc)

/-- Single bytes leave the second byte of the buffer alone. -/
theorem dataOnly_of_second {d : UInt8} (hd : d ≠ 69) (tail bytes : List UInt8) (c : UInt8) :
    DataOnly (c :: d :: tail) (bytes.map single) := by
  induction bytes generalizing c with
  | nil => trivial
  | cons b bytes ih =>
    constructor
    · intro hp
      change seekPrefix <+: b :: d :: tail at hp
      rw [seekPrefix, List.cons_prefix_cons, List.cons_prefix_cons] at hp
      exact hd hp.2.1.symm
    · exact ih b

/-- With the rest of the prefix behind it, a single "A" is taken for a seek. -/
theorem not_dataOnly_of_armed {bytes : List UInt8} (h : 65 ∈ bytes) (c : UInt8) :
    ¬DataOnly (c :: seekPrefix.tail) (bytes.map single) := by
  induction bytes generalizing c with
  | nil => exact absurd h List.not_mem_nil
  | cons b bytes ih =>
    rintro ⟨hnot, hrest⟩
    rcases List.mem_cons.mp h with rfl | h
    · exact hnot (List.prefix_refl _)
    · exact ih h b hrest

section Apart

variable {kernel : FixedSizeLlseek} {dev : DriverState} (hwf : DeviceWf dev) {w : List UInt8}
  (hroom : Room dev w.length)

include hwf hroom

/-- A line behind another one is read if the newline does not end its chunk. -/
theorem newline_last_of_free (hfree : SegmentationFree kernel dev w) : newline ∉ w.dropLast := by
  intro hmem
  obtain ⟨u, v, huv, hu⟩ := List.eq_append_cons_of_mem hmem
  have hne : w ≠ [] := by
    rintro rfl
    exact List.not_mem_nil hmem
  obtain ⟨x, z, hz⟩ := List.exists_cons_of_ne_nil
    (List.append_ne_nil_of_right_ne_nil v (List.cons_ne_nil (w.getLast hne) []))
  have hw : w = u ++ newline :: x :: z := by
    rw [← List.dropLast_append_getLast hne, huv, List.append_assoc, List.cons_append, hz]
  -- one byte at a time, and with the newline in one chunk with the byte behind it
  let m : Surroundings := ⟨[], ⟨0, 0⟩, fun _ _ => 0⟩
  let cut := w.map single
  let cut' := u.map single ++ pair newline x :: z.map single
  have hcut : chunkBytes cut = w := chunkBytes_singles w
  have hcut' : chunkBytes cut' = w := by
    simp only [cut', chunkBytes_append, chunkBytes_singles, chunkBytes_cons, hw]
    rfl
  have hshort : ∀ chunk ∈ cut ++ cut', chunk.bytes.length < seekPrefix.length := by
    intro chunk hc
    simp only [cut, cut', List.mem_append, List.mem_map, List.mem_cons] at hc
    rcases hc with ⟨b, -, rfl⟩ | ⟨b, -, rfl⟩ | rfl | ⟨b, -, rfl⟩
    all_goals simp [single, pair, seekPrefix]
  have hbuf : m.buf.length < seekPrefix.length := by decide
  have hnil : cut ≠ [] := by simpa [cut] using hne
  have hnil' : cut' ≠ [] := by simp [cut']
  have hdata := client_data hwf m (hcut.symm ▸ hroom) kernel hnil
    (dataOnly_of_short (fun c hc => hshort c (List.mem_append_left _ hc)) hbuf)
  have hdata' := client_data hwf m (hcut'.symm ▸ hroom) kernel hnil'
    (dataOnly_of_short (fun c hc => hshort c (List.mem_append_right _ hc)) hbuf)
  rw [hfree m cut cut' hcut hcut', hdata'] at hdata
  have hwrite := viewOf_injective (Option.some.inj hdata)
  -- the first session stops behind the newline and the second does not
  have hbytes : chunkBytes (packetChunks cut) = u ++ [newline] := by
    have hone : packetChunks (single newline :: (x :: z).map single) = [single newline] := rfl
    simp only [cut, hw, List.map_append, List.map_cons]
    rw [packetChunks_singles_append hu, ← List.map_cons, hone, chunkBytes_append, chunkBytes_singles]
    rfl
  obtain ⟨rest, hbytes'⟩ : ∃ rest, chunkBytes (packetChunks cut') = u ++ newline :: x :: rest := by
    refine ⟨chunkBytes (if (pair newline x).endsPacket then [] else packetChunks (z.map single)), ?_⟩
    simp only [cut', packetChunks_singles_append hu, packetChunks, chunkBytes_append, chunkBytes_singles,
      chunkBytes_cons]
    rfl
  rw [hbytes, hbytes'] at hwrite
  have hsame := LineStore.write_injective (by simp) (by simp) hwrite
  have htail := List.append_cancel_left hsame
  simp at htail

theorem not_free_of_seek (hnl : newline ∉ w.dropLast) {m : Surroundings} {cut cut' : List Chunk}
    (hcut : chunkBytes cut = w) (hcut' : chunkBytes cut' = w) (hdata : DataOnly m.buf cut)
    (hseek : ¬DataOnly m.buf cut')
    (hhead : ∀ chunk ∈ cut', chunk.endsPacket = true → chunk.bytes.head? ≠ some 65) :
    ¬SegmentationFree kernel dev w := by
  intro hfree
  have hne' : cut' ≠ [] := by
    rintro rfl
    exact hseek trivial
  have hne : cut ≠ [] := by
    rintro rfl
    exact chunkBytes_ne_nil hne' (hcut'.trans hcut.symm)
  have hview := client_data hwf m (hcut.symm ▸ hroom) kernel hne hdata
  rw [packetChunks_eq (hcut.symm ▸ hnl), hcut] at hview
  have hview' := client_seeks hwf m (hcut'.symm ▸ hroom) kernel hseek (hcut'.symm ▸ hnl) hhead
  rw [hcut'] at hview'
  exact hview' ((hfree m cut' cut hcut' hcut).trans hview)

/-- Any "A" can be made a seek in one cut and left data in another. Which cut is
which depends on whether the second byte continues the prefix. -/
theorem letter_not_mem_of_free (hlen : 1 < w.length) (hfree : SegmentationFree kernel dev w) :
    65 ∉ w := by
  intro hA
  have hnl := newline_last_of_free hwf hroom hfree
  -- two cuts: byte by byte, and with the first two bytes in one chunk
  obtain ⟨a, x, z, rfl⟩ : ∃ a x z, w = a :: x :: z := by
    rcases w with _ | ⟨a, _ | ⟨x, z⟩⟩
    · simp at hlen
    · simp at hlen
    · exact ⟨a, x, z, rfl⟩
  have hcut : chunkBytes ((a :: x :: z).map single) = a :: x :: z := chunkBytes_singles _
  have hcut' : chunkBytes (pair a x :: z.map single) = a :: x :: z := by
    rw [chunkBytes_cons, chunkBytes_singles]
    rfl
  have hsingle (b : UInt8) (hend : (single b).endsPacket = true) :
      (single b).bytes.head? ≠ some 65 := by
    rw [single_endsPacket hend]
    decide
  by_cases hx : x = 69
  · -- the pair puts the missing "E" into the buffer
    have hdata : DataOnly (0 :: 0 :: seekPrefix.tail.tail) ((a :: x :: z).map single) :=
      dataOnly_of_second (by decide) _ _ 0
    have hseek : ¬DataOnly (0 :: 0 :: seekPrefix.tail.tail) (pair a x :: z.map single) := by
      rintro ⟨hnot, hrest⟩
      have hbuf : recvInto (0 :: 0 :: seekPrefix.tail.tail) (pair a x) = a :: seekPrefix.tail := by
        rw [hx]
        rfl
      rw [hbuf] at hnot hrest
      rcases List.mem_cons.mp hA with rfl | hA
      · exact hnot (List.prefix_refl _)
      · rcases List.mem_cons.mp hA with hA | hA
        · rw [hx] at hA
          exact absurd hA (by decide)
        · exact not_dataOnly_of_armed hA a hrest
    apply not_free_of_seek hwf hroom hnl (m := ⟨_, ⟨0, 0⟩, fun _ _ => 0⟩) hcut hcut' hdata hseek _ hfree
    intro chunk hc hend
    rcases List.mem_cons.mp hc with rfl | hc
    · rw [hx] at hend
      have hlast : (69 : UInt8) = newline := by simpa [pair, Chunk.endsPacket] using hend
      exact absurd hlast (by decide)
    · obtain ⟨b, -, rfl⟩ := List.mem_map.mp hc
      exact hsingle b hend
  · -- the pair overwrites the "E" that the buffer holds
    have hdata : DataOnly (0 :: seekPrefix.tail) (pair a x :: z.map single) := by
      constructor
      · intro hp
        change seekPrefix <+: a :: x :: seekPrefix.tail.tail at hp
        rw [seekPrefix, List.cons_prefix_cons, List.cons_prefix_cons] at hp
        exact hx hp.2.1.symm
      · exact dataOnly_of_second hx seekPrefix.tail.tail z a
    have hseek : ¬DataOnly (0 :: seekPrefix.tail) ((a :: x :: z).map single) :=
      not_dataOnly_of_armed hA 0
    apply not_free_of_seek hwf hroom hnl (m := ⟨_, ⟨0, 0⟩, fun _ _ => 0⟩) hcut' hcut hdata hseek _ hfree
    intro chunk hc hend
    obtain ⟨b, -, rfl⟩ := List.mem_map.mp hc
    exact hsingle b hend

end Apart

theorem free_of_data (kernel : FixedSizeLlseek) {dev : DriverState} (hwf : DeviceWf dev)
    {w : List UInt8} (hroom : Room dev w.length) (hnl : newline ∉ w.dropLast) (hA : 65 ∉ w) :
    SegmentationFree kernel dev w := by
  -- every cut is written as the whole stream
  have hview (m : Surroundings) (cut : List Chunk) (hcut : chunkBytes cut = w) (hne : cut ≠ []) :
      (sendAndReceive kernel dev (m.client cut)).map SessionEnd.view =
        some (viewOf (LineStore.write newline 10 (m.carrying dev) w).1) := by
    have hheads : ∀ chunk ∈ cut, chunk.bytes.head? ≠ some 65 := by
      intro chunk hc hhead
      apply hA
      rw [← hcut]
      apply List.mem_flatten.mpr
      exact ⟨chunk.bytes, List.mem_map_of_mem hc, List.mem_of_head? hhead⟩
    have h := client_data hwf m (hcut.symm ▸ hroom) kernel hne (dataOnly_of_heads hheads m.buf)
    rw [packetChunks_eq (hcut.symm ▸ hnl), hcut] at h
    exact h
  intro m cut cut' hcut hcut'
  by_cases hlen : w.length ≤ 1
  · rw [chunks_unique hlen hcut hcut']
  · have hne (c : List Chunk) (hc : chunkBytes c = w) : c ≠ [] := by
      rintro rfl
      rw [← hc] at hlen
      exact hlen (Nat.zero_le 1)
    rw [hview m cut hcut (hne cut hcut), hview m cut' hcut' (hne cut' hcut')]

/-- Where there is memory for the stream, its segmentation does not matter exactly
when it has at most one byte, or no "A" and a newline at most as its last byte. -/
theorem segmentation_free_iff (kernel : FixedSizeLlseek) {dev : DriverState} (hdev : Reachable dev)
    (w : List UInt8) (hroom : Room dev w.length) :
    SegmentationFree kernel dev w ↔ w.length ≤ 1 ∨ (newline ∉ w.dropLast ∧ 65 ∉ w) := by
  constructor
  · intro hfree
    by_cases hlen : w.length ≤ 1
    · exact Or.inl hlen
    · right
      constructor
      · exact newline_last_of_free hdev.wf hroom hfree
      · exact letter_not_mem_of_free hdev.wf hroom (by omega) hfree
  · rintro (hlen | ⟨hnl, hA⟩)
    · intro m cut cut' hcut hcut'
      rw [chunks_unique hlen hcut hcut']
    · exact free_of_data kernel hdev.wf hroom hnl hA

theorem segmentation_free_iff_one_line :
    SegmentationFree boundedLlseek aesdInitModule [122, 10] := by
  have hroom : Room aesdInitModule [(122 : UInt8), 10].length := by
    unfold Room addressable
    decide +kernel
  have hdev : Reachable aesdInitModule := ⟨[], rfl⟩
  apply (segmentation_free_iff boundedLlseek hdev [122, 10] hroom).mpr
  right
  constructor <;> decide

/-- Two lines, "r\n" and "s\n". In one chunk they become one entry; in two chunks
the second one is never read. -/
theorem second_line_not_read :
    let m : Surroundings := ⟨[], ⟨0, 0⟩, fun _ _ => 0⟩
    let outcome := fun cut : List Chunk =>
      (sendAndReceive boundedLlseek aesdInitModule (m.client cut)).map SessionEnd.view
    let together : Chunk := ⟨[114, 10, 115, 10], by decide, by decide⟩
    outcome [together] = some ⟨[114, 10, 115, 10], [[114, 10, 115, 10]], []⟩ ∧
      outcome [pair 114 10, pair 115 10] = some ⟨[114, 10], [[114, 10]], []⟩ ∧
      ¬∀ (dev : DriverState) (w : List UInt8), Reachable dev → SegmentationFree boundedLlseek dev w := by
  intro m outcome together
  have hone : outcome [together] = some ⟨[114, 10, 115, 10], [[114, 10, 115, 10]], []⟩ := by
    decide +kernel
  have htwo : outcome [pair 114 10, pair 115 10] = some ⟨[114, 10], [[114, 10]], []⟩ := by
    decide +kernel
  refine ⟨hone, htwo, fun h => ?_⟩
  have hsame : outcome [together] = outcome [pair 114 10, pair 115 10] :=
    h aesdInitModule [114, 10, 115, 10] ⟨[], rfl⟩ m [together] [pair 114 10, pair 115 10] rfl rfl
  rw [hone, htwo] at hsame
  exact absurd hsame (by decide)

end ProvenAesd.Server
