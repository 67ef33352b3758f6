import ProvenAesd.SocketStaleBytes

/-! Which chunks with the prefix are seek requests, and which of them the server
takes for one. -/
namespace ProvenAesd.Server
open Driver

/-! `%d` by the C standard, which leaves open what happens to a number that no
`int` can hold. -/

/-- A number, given by its sign and magnitude, that fits an `int`. -/
def FitsInt (neg : Bool) (value : ℕ) : Prop := if neg then value ≤ 2^31 else value < 2^31

instance (neg : Bool) (value : ℕ) : Decidable (FitsInt neg value) :=
  inferInstanceAs (Decidable (if neg = true then value ≤ 2^31 else value < 2^31))

structure IntConversion where
  stored : Bool → ℕ → UInt32
  exact : ∀ neg value, FitsInt neg value →
    stored neg value = UInt32.ofInt (if neg then -value else value)

namespace IntConversion

variable (conv : IntConversion)

def storeNumber (seekto : AesdSeekto) : ScanPhase → AesdSeekto
  | .digits false neg value => { seekto with writeCmd := conv.stored neg value }
  | .digits true neg value => { seekto with writeCmdOffset := conv.stored neg value }
  | _ => seekto

def scanByte (p : ScanPhase × AesdSeekto) (b : UInt8) : ScanPhase × AesdSeekto :=
  (scanPhase p.1 b, conv.storeNumber p.2 (scanPhase p.1 b))

def scanFrom (p : ScanPhase × AesdSeekto) (bytes : List UInt8) : ScanPhase × AesdSeekto :=
  bytes.foldl conv.scanByte p

/-- `sscanfSeekto`, with the conversions left to `conv`. -/
def sscanfSeekto (mem : List UInt8) (seekto : AesdSeekto) : AesdSeekto :=
  (conv.scanFrom (.name false, seekto) mem).2

def chunkAction (mem : List UInt8) (rcvd : ℕ) (seekto : AesdSeekto) : ServerAction :=
  if strncmpEq mem seekPrefix 19 then .seek (conv.sscanfSeekto mem seekto)
  else .data (mem.take rcvd)

@[simp] theorem scanFrom_nil (p : ScanPhase × AesdSeekto) : conv.scanFrom p [] = p := rfl

@[simp] theorem scanFrom_cons (p : ScanPhase × AesdSeekto) (b : UInt8) (bytes : List UInt8) :
    conv.scanFrom p (b :: bytes) = conv.scanFrom (conv.scanByte p b) bytes := rfl

@[simp] theorem scanFrom_append (p : ScanPhase × AesdSeekto) (xs ys : List UInt8) :
    conv.scanFrom p (xs ++ ys) = conv.scanFrom (conv.scanFrom p xs) ys := List.foldl_append

theorem chunkAction_of_seek {mem : List UInt8} (h : seekPrefix <+: mem) (rcvd : ℕ)
    (seekto : AesdSeekto) :
    conv.chunkAction mem rcvd seekto = .seek (conv.sscanfSeekto mem seekto) := by
  rw [chunkAction, if_pos ((seekTest_iff mem).mpr h)]

theorem chunkAction_of_data {mem : List UInt8} (h : ¬seekPrefix <+: mem) (rcvd : ℕ)
    (seekto : AesdSeekto) : conv.chunkAction mem rcvd seekto = .data (mem.take rcvd) := by
  rw [chunkAction, if_neg (mt (seekTest_iff mem).mp h)]

end IntConversion

theorem FitsInt.le_longLimit {neg : Bool} {value : ℕ} (h : FitsInt neg value) :
    value ≤ longLimit neg := by
  cases neg with
  | false =>
    have hlt : value < 2^31 := by simpa [FitsInt] using h
    simp only [longLimit, Bool.false_eq_true, if_false]
    omega
  | true =>
    have hle : value ≤ 2^31 := by simpa [FitsInt] using h
    simp only [longLimit, if_true]
    omega

/-- The conversion of `storedInt`: through `strtol`, cut to 32 bits. -/
def strtolConversion : IntConversion where
  stored := storedInt
  exact neg value h := by simp only [storedInt, min_eq_left h.le_longLimit]

theorem strtol_chunkAction (mem : List UInt8) (rcvd : ℕ) (seekto : AesdSeekto) :
    strtolConversion.chunkAction mem rcvd seekto = chunkAction mem rcvd seekto := by
  have hstore : strtolConversion.storeNumber = storeNumber := by
    funext seekto p
    rcases p with _ | _ | _ | ⟨second, neg, value⟩ | _
    case digits => cases second <;> rfl
    all_goals rfl
  have hbyte : strtolConversion.scanByte = scanByte := by
    funext p b
    simp only [IntConversion.scanByte, scanByte, hstore]
  simp only [IntConversion.chunkAction, chunkAction, IntConversion.sscanfSeekto, sscanfSeekto,
    IntConversion.scanFrom, scanFrom, hbyte]

theorem ofInt_of_lt {n : ℕ} (h : n < 2^32) : UInt32.ofInt n = UInt32.ofNat n := by
  have hmod : ((n : ℤ)%2^32).toNat = n := by omega
  rw [UInt32.ofInt, hmod]

/-- Below 2^32 the cut loses nothing. -/
theorem storedInt_of_lt {n : ℕ} (h : n < 2^32) : storedInt false n = UInt32.ofNat n := by
  have hmin : min n (longLimit false) = n := by
    simp only [longLimit, Bool.false_eq_true, if_false]
    omega
  simp only [storedInt, hmin, Bool.false_eq_true, if_false]
  exact ofInt_of_lt h

theorem IntConversion.stored_of_lt (conv : IntConversion) {n : ℕ} (h : n < 2^31) :
    conv.stored false n = UInt32.ofNat n := by
  rw [conv.exact false n (by simpa [FitsInt] using h)]
  exact ofInt_of_lt (by omega)

/-! The requests. -/

def decimalFrom (value : ℕ) (digits : List UInt8) : ℕ :=
  digits.foldl (fun value b => 10*value+digitValue b) value

structure Decimal (digits : List UInt8) (n : ℕ) : Prop where
  ne_nil : digits ≠ []
  digit : ∀ b ∈ digits, isDigit b = true
  value_eq : decimalFrom 0 digits = n
  lt : n < 2^32

/-- `AESDCHAR_IOCSEEKTO:X,Y` on a line. -/
def SeekRequest (chunk : List UInt8) (x y : ℕ) : Prop :=
  ∃ xs ys, Decimal xs x ∧ Decimal ys y ∧ chunk = seekPrefix ++ (xs ++ 44 :: (ys ++ [newline]))

/-- A seek is issued for a request, with the numbers of the request, and for
nothing else. -/
structure SeekExact (chunk : List UInt8) (action : ServerAction) : Prop where
  only : ∀ seekto, action = .seek seekto →
    SeekRequest chunk seekto.writeCmd.toNat seekto.writeCmdOffset.toNat
  issued : ∀ x y, SeekRequest chunk x y → action = .seek ⟨UInt32.ofNat x, UInt32.ofNat y⟩

theorem SeekRequest.seekPrefix {chunk : List UInt8} {x y : ℕ} (h : SeekRequest chunk x y) :
    seekPrefix <+: chunk := by
  obtain ⟨xs, ys, -, -, rfl⟩ := h
  exact List.prefix_append _ _

/-- 32 bits hold both numbers. -/
theorem SeekRequest.lt {chunk : List UInt8} {x y : ℕ} (h : SeekRequest chunk x y) :
    x < 2^32 ∧ y < 2^32 := by
  obtain ⟨xs, ys, hx, hy, -⟩ := h
  exact ⟨hx.lt, hy.lt⟩

/-! The scan of a request. -/

theorem scanPhase_digits {b : UInt8} (hb : isDigit b = true) (second neg : Bool) (value : ℕ) :
    scanPhase (.digits second neg value) b = .digits second neg (10*value+digitValue b) := by
  simp only [scanPhase, hb, if_true]

/-- A digit is neither a blank nor a sign. -/
theorem scanPhase_first_digit {b : UInt8} (hb : isDigit b = true) (second : Bool) :
    scanPhase (.space second) b = .digits second false (digitValue b) := by
  have hrange := hb
  simp only [isDigit, Bool.and_eq_true, decide_eq_true_eq, UInt8.le_iff_toNat_le] at hrange
  obtain ⟨hlow, hhigh⟩ := hrange
  have hlow' : 48 ≤ b.toNat := hlow
  have hspace : isSpace b = false := by
    simp only [isSpace, Bool.or_eq_false_iff, beq_eq_false_iff_ne, Bool.and_eq_false_iff,
      decide_eq_false_iff_not, UInt8.le_iff_toNat_le]
    constructor
    · rintro rfl
      exact absurd hlow' (by decide)
    · right
      intro hle
      have hle' : b.toNat ≤ 13 := hle
      omega
  have hminus : b ≠ 45 := by
    rintro rfl
    exact absurd hlow' (by decide)
  have hplus : b ≠ 43 := by
    rintro rfl
    exact absurd hlow' (by decide)
  simp only [scanPhase, hspace, Bool.false_eq_true, if_false, if_neg hminus, if_neg hplus, hb,
    if_true]

section Scan

variable (conv : IntConversion)

/-- The digits of a number are read to its end, and its value is what is stored. -/
theorem scanFrom_digits (second : Bool) (seekto : AesdSeekto) {digits : List UInt8}
    (hd : ∀ b ∈ digits, isDigit b = true) (value : ℕ) :
    conv.scanFrom (.digits second false value,
        conv.storeNumber seekto (.digits second false value)) digits =
      (.digits second false (decimalFrom value digits),
        conv.storeNumber seekto (.digits second false (decimalFrom value digits))) := by
  induction digits generalizing value with
  | nil => rfl
  | cons b digits ih =>
    have hb : isDigit b = true := hd b List.mem_cons_self
    have hrest : ∀ c ∈ digits, isDigit c = true := fun c hc => hd c (List.mem_cons_of_mem b hc)
    have hover (m n : ℕ) :
        conv.storeNumber (conv.storeNumber seekto (.digits second false m))
          (.digits second false n) = conv.storeNumber seekto (.digits second false n) := by
      cases second <;> rfl
    rw [IntConversion.scanFrom_cons, IntConversion.scanByte, scanPhase_digits hb, hover]
    exact ih hrest (10*value+digitValue b)

theorem scanFrom_decimal (second : Bool) (seekto : AesdSeekto) {digits : List UInt8} {n : ℕ}
    (h : Decimal digits n) :
    conv.scanFrom (.space second, seekto) digits =
      (.digits second false n, conv.storeNumber seekto (.digits second false n)) := by
  obtain ⟨b, rest, rfl⟩ := List.exists_cons_of_ne_nil h.ne_nil
  have hb : isDigit b = true := h.digit b List.mem_cons_self
  have hrest : ∀ c ∈ rest, isDigit c = true := fun c hc => h.digit c (List.mem_cons_of_mem b hc)
  have hvalue : decimalFrom (digitValue b) rest = n := by
    rw [← h.value_eq]
    simp [decimalFrom]
  rw [IntConversion.scanFrom_cons, IntConversion.scanByte, scanPhase_first_digit hb,
    scanFrom_digits conv second seekto hrest, hvalue]

theorem scanFrom_seekPrefix (seekto : AesdSeekto) :
    conv.scanFrom (.name false, seekto) seekPrefix = (.space false, seekto) := rfl

/-- The scan is done with the line of a request. -/
theorem scanFrom_request {chunk : List UInt8} {x y : ℕ} (h : SeekRequest chunk x y)
    (seekto : AesdSeekto) :
    conv.scanFrom (.name false, seekto) chunk =
      (.done, ⟨conv.stored false x, conv.stored false y⟩) := by
  obtain ⟨xs, ys, hx, hy, rfl⟩ := h
  have hcomma (value : ℕ) : scanPhase (.digits false false value) 44 = .space true := by
    have hdigit : isDigit 44 = false := by decide
    simp [scanPhase, hdigit]
  have hend (value : ℕ) : scanPhase (.digits true false value) newline = .done := by
    have hdigit : isDigit newline = false := by decide
    simp [scanPhase, hdigit]
  rw [IntConversion.scanFrom_append, scanFrom_seekPrefix, IntConversion.scanFrom_append,
    scanFrom_decimal conv false seekto hx, IntConversion.scanFrom_cons, IntConversion.scanByte, hcomma,
    IntConversion.scanFrom_append, scanFrom_decimal conv true _ hy, IntConversion.scanFrom_cons,
    IntConversion.scanByte, hend]
  rfl

theorem sscanf_request {chunk : List UInt8} {x y : ℕ} (h : SeekRequest chunk x y)
    (seekto : AesdSeekto) :
    conv.sscanfSeekto chunk seekto = ⟨conv.stored false x, conv.stored false y⟩ := by
  rw [IntConversion.sscanfSeekto, scanFrom_request conv h]

end Scan

/-- A number above the range of `int` may be stored one too large. -/
def spoiledConversion : IntConversion where
  stored neg value := if FitsInt neg value then storedInt neg value else storedInt neg value+1
  exact neg value h := by
    rw [if_pos h]
    exact strtolConversion.exact neg value h

theorem toNat_ofNat_of_lt {n : ℕ} (h : n < 2^32) : (UInt32.ofNat n).toNat = n :=
  Nat.mod_eq_of_lt h

/-- A chunk is a request for at most one pair of numbers. -/
theorem SeekRequest.unique {chunk : List UInt8} {x y x' y' : ℕ} (h : SeekRequest chunk x y)
    (h' : SeekRequest chunk x' y') : x' = x ∧ y' = y := by
  have hscan := sscanf_request strtolConversion h ⟨0, 0⟩
  rw [sscanf_request strtolConversion h', AesdSeekto.mk.injEq] at hscan
  have hsame {m n : ℕ} (hm : m < 2^32) (hn : n < 2^32)
      (he : storedInt false m = storedInt false n) : m = n := by
    rw [storedInt_of_lt hm, storedInt_of_lt hn] at he
    rw [← toNat_ofNat_of_lt hm, he, toNat_ofNat_of_lt hn]
  exact ⟨hsame h'.lt.1 h.lt.1 hscan.1, hsame h'.lt.2 h.lt.2 hscan.2⟩

theorem chunkAction_of_request (conv : IntConversion) {chunk : List UInt8} {x y : ℕ}
    (h : SeekRequest chunk x y) (rcvd : ℕ) (seekto : AesdSeekto) :
    conv.chunkAction chunk rcvd seekto = .seek ⟨conv.stored false x, conv.stored false y⟩ := by
  rw [conv.chunkAction_of_seek h.seekPrefix, sscanf_request conv h]

/-- With any conversion, the seeks are right on just the requests whose numbers it
keeps, and on the chunks without the prefix. -/
theorem conversion_exact_iff (conv : IntConversion) (chunk : List UInt8) (rcvd : ℕ)
    (seekto : AesdSeekto) :
    SeekExact chunk (conv.chunkAction chunk rcvd seekto) ↔
      ¬seekPrefix <+: chunk ∨ ∃ x y, SeekRequest chunk x y ∧
        conv.stored false x = UInt32.ofNat x ∧ conv.stored false y = UInt32.ofNat y := by
  constructor
  · intro h
    by_cases hp : seekPrefix <+: chunk
    · -- the server goes by the prefix alone, so the chunk has to be a request
      have hreq := h.only _ (conv.chunkAction_of_seek hp rcvd seekto)
      have hissued := h.issued _ _ hreq
      rw [chunkAction_of_request conv hreq] at hissued
      have hkept := ServerAction.seek.inj hissued
      rw [AesdSeekto.mk.injEq] at hkept
      exact Or.inr ⟨_, _, hreq, hkept⟩
    · exact Or.inl hp
  · rintro (hp | ⟨x, y, hreq, hx, hy⟩)
    · have hdata := conv.chunkAction_of_data hp rcvd seekto
      constructor
      · intro seekto' hseek
        rw [hdata] at hseek
        cases hseek
      · intro x y hreq
        exact absurd hreq.seekPrefix hp
    · have haction := chunkAction_of_request conv hreq rcvd seekto
      rw [hx, hy] at haction
      constructor
      · intro seekto' hseek
        rw [haction] at hseek
        obtain rfl := ServerAction.seek.inj hseek
        rw [toNat_ofNat_of_lt hreq.lt.1, toNat_ofNat_of_lt hreq.lt.2]
        exact hreq
      · intro x' y' hreq'
        obtain ⟨rfl, rfl⟩ := hreq.unique hreq'
        exact haction

theorem spoiled_keeps {n : ℕ} (h : n < 2^32)
    (hkept : spoiledConversion.stored false n = UInt32.ofNat n) : n < 2^31 := by
  by_contra hge
  have hbig : ¬FitsInt false n := by simpa [FitsInt] using hge
  have hstored : spoiledConversion.stored false n = storedInt false n+1 := if_neg hbig
  rw [hstored, storedInt_of_lt h] at hkept
  exact succ_ne_self _ hkept

/-- Whatever `seekto` held before, a chunk is treated as it should be when it does
not start with the prefix or is a request: by the C standard one for numbers that
an `int` can hold, with the conversion through `strtol` any. -/
theorem seek_exact_iff (chunk : Chunk) (seekto : AesdSeekto) :
    ((∀ conv : IntConversion,
        SeekExact chunk.bytes (conv.chunkAction chunk.bytes chunk.rcvd seekto)) ↔
      ¬seekPrefix <+: chunk.bytes ∨
        ∃ x y, SeekRequest chunk.bytes x y ∧ x < 2^31 ∧ y < 2^31) ∧
    (SeekExact chunk.bytes (chunkAction chunk.bytes chunk.rcvd seekto) ↔
      ¬seekPrefix <+: chunk.bytes ∨ ∃ x y, SeekRequest chunk.bytes x y) := by
  constructor
  · constructor
    · intro h
      rcases (conversion_exact_iff spoiledConversion _ _ _).mp (h spoiledConversion) with
        hp | ⟨x, y, hreq, hx, hy⟩
      · exact Or.inl hp
      · exact Or.inr ⟨x, y, hreq, spoiled_keeps hreq.lt.1 hx, spoiled_keeps hreq.lt.2 hy⟩
    · intro h conv
      apply (conversion_exact_iff conv _ _ _).mpr
      rcases h with hp | ⟨x, y, hreq, hx, hy⟩
      · exact Or.inl hp
      · exact Or.inr ⟨x, y, hreq, conv.stored_of_lt hx, conv.stored_of_lt hy⟩
  · rw [← strtol_chunkAction, conversion_exact_iff]
    constructor
    · rintro (hp | ⟨x, y, hreq, -⟩)
      · exact Or.inl hp
      · exact Or.inr ⟨x, y, hreq⟩
    · rintro (hp | ⟨x, y, hreq⟩)
      · exact Or.inl hp
      · exact Or.inr ⟨x, y, hreq, storedInt_of_lt hreq.lt.1, storedInt_of_lt hreq.lt.2⟩

/-- "AESDCHAR_IOCSEEKTO:" on a line of its own. -/
def bareSeek : Chunk where
  bytes := seekPrefix ++ [newline]
  ne_nil := by simp
  le_bufSize := by decide

/-- Without numbers, the seek goes to wherever the stack happens to say. -/
theorem bare_prefix_seeks_uninitialised :
    bareSeek.endsPacket = true ∧
      (∀ seekto, chunkAction bareSeek.bytes bareSeek.rcvd seekto = .seek seekto) ∧
      ∀ seekto, ¬SeekExact bareSeek.bytes (chunkAction bareSeek.bytes bareSeek.rcvd seekto) := by
  have hseek (seekto : AesdSeekto) :
      chunkAction bareSeek.bytes bareSeek.rcvd seekto = .seek seekto :=
    chunkAction_of_seek (List.prefix_append seekPrefix [newline]) bareSeek.rcvd seekto
  refine ⟨by decide, hseek, fun seekto h => ?_⟩
  obtain ⟨xs, ys, -, -, hbytes⟩ := h.only seekto (hseek seekto)
  -- one byte behind the prefix cannot hold a comma and a newline
  have hlen := congrArg List.length (List.append_cancel_left hbytes)
  simp only [List.length_append, List.length_cons, List.length_nil] at hlen
  omega

end ProvenAesd.Server
