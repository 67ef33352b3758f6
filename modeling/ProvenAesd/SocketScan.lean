import ProvenAesd.AESDDevice

/-! How the server reads what it received: the comparison with the prefix and the
scan for the two numbers, both of which look at memory and not at the number of
bytes received. Memory is given up to some byte; what lies behind it reads as NUL. -/
namespace ProvenAesd.Server
open Driver

/-- "AESDCHAR_IOCSEEKTO:" -/
def seekPrefix : List UInt8 :=
  [65, 69, 83, 68, 67, 72, 65, 82, 95, 73, 79, 67, 83, 69, 69, 75, 84, 79, 58]

abbrev bufSize : ℕ := 1024

/-- `strncmp(a, b, n) == 0`. -/
def strncmpEq (a b : List UInt8) : ℕ → Bool
  | 0 => true
  | n+1 =>
    let x := a.headD 0
    let y := b.headD 0
    x == y && (x == 0 || strncmpEq a.tail b.tail n)

def isSpace (b : UInt8) : Bool := b == 32 || (9 ≤ b && b ≤ 13)

def isDigit (b : UInt8) : Bool := 48 ≤ b && b ≤ 57

def digitValue (b : UInt8) : ℕ := b.toNat-48

/-- Where the scan of `"%[^:]:%d,%d"` stands. -/
inductive ScanPhase
  | name (nonempty : Bool)
  | space (second : Bool)
  | sign (second neg : Bool)
  | digits (second neg : Bool) (value : ℕ)
  | done
  deriving DecidableEq, Repr

/-- The next byte, NUL included, either continues the item that is read or ends it. -/
def scanPhase : ScanPhase → UInt8 → ScanPhase
  | .name nonempty, b =>
    if b = 58 then if nonempty then .space false else .done
    else if b = 0 then .done
    else .name true
  | .space second, b =>
    if isSpace b then .space second
    else if b = 45 then .sign second true
    else if b = 43 then .sign second false
    else if isDigit b then .digits second false (digitValue b)
    else .done
  | .sign second neg, b => if isDigit b then .digits second neg (digitValue b) else .done
  | .digits second neg value, b =>
    if isDigit b then .digits second neg (10*value+digitValue b)
    -- only the first number is followed by a comma in the format
    else if second = false ∧ b = 44 then .space true
    else .done
  | .done, _ => .done

/-- The magnitude at which `strtol` stops counting. -/
def longLimit (neg : Bool) : ℕ := if neg then 2^63 else 2^63-1

/-- What `%d` stores for a sign and a string of digits: the value of `strtol`, cut
to the 32 bits of the `int` it is assigned to. -/
def storedInt (neg : Bool) (value : ℕ) : UInt32 :=
  let magnitude : ℕ := min value (longLimit neg)
  UInt32.ofInt (if neg then -magnitude else magnitude)

/-- The number read so far goes to its field of `seekto`. -/
def storeNumber (seekto : AesdSeekto) : ScanPhase → AesdSeekto
  | .digits false neg value => { seekto with writeCmd := storedInt neg value }
  | .digits true neg value => { seekto with writeCmdOffset := storedInt neg value }
  | _ => seekto

def scanByte (p : ScanPhase × AesdSeekto) (b : UInt8) : ScanPhase × AesdSeekto :=
  (scanPhase p.1 b, storeNumber p.2 (scanPhase p.1 b))

def scanFrom (p : ScanPhase × AesdSeekto) (bytes : List UInt8) : ScanPhase × AesdSeekto :=
  bytes.foldl scanByte p

/-- `sscanf(buf, "%[^:]:%d,%d", iocbuf, &seekto.write_cmd, &seekto.write_cmd_offset)`.
A field that is not reached keeps its value. -/
def sscanfSeekto (mem : List UInt8) (seekto : AesdSeekto) : AesdSeekto :=
  (scanFrom (.name false, seekto) mem).2

inductive ServerAction
  | seek (seekto : AesdSeekto)
  | data (bytes : List UInt8)
  deriving DecidableEq, Repr

/-- One turn of the receive loop over `rcvd` new bytes at the start of `mem`. -/
def chunkAction (mem : List UInt8) (rcvd : ℕ) (seekto : AesdSeekto) : ServerAction :=
  if strncmpEq mem seekPrefix 19 then .seek (sscanfSeekto mem seekto)
  else .data (mem.take rcvd)

/-- What `recv` returns, when it is neither an error nor the end of the stream. -/
structure Chunk where
  bytes : List UInt8
  ne_nil : bytes ≠ []
  le_bufSize : bytes.length ≤ bufSize

namespace Chunk

def rcvd (chunk : Chunk) : ℕ := chunk.bytes.length

/-- `buf[rcvd - 1] == '\n'` -/
def endsPacket (chunk : Chunk) : Bool := chunk.bytes.getLast? == some newline

theorem rcvd_pos (chunk : Chunk) : 0 < chunk.rcvd := List.length_pos_iff.mpr chunk.ne_nil

theorem endsPacket_eq_true {chunk : Chunk} :
    chunk.endsPacket = true ↔ chunk.bytes.getLast? = some newline := beq_iff_eq

theorem endsPacket_eq_false {chunk : Chunk} :
    chunk.endsPacket = false ↔ chunk.bytes.getLast? ≠ some newline := beq_eq_false_iff_ne

end Chunk

def recvInto (mem : List UInt8) (chunk : Chunk) : List UInt8 :=
  chunk.bytes ++ mem.drop chunk.rcvd

def ServerAction.seekto (seekto : AesdSeekto) : ServerAction → AesdSeekto
  | .seek seekto' => seekto'
  | .data _ => seekto

/-- What the chunks of a packet ask for, each with what the ones before it have left
behind it in the buffer. A call that fails ends the session before the packet ends. -/
def askedActions : List UInt8 → AesdSeekto → List Chunk → List ServerAction
  | _, _, [] => []
  | buf, seekto, chunk :: chunks =>
    let mem := recvInto buf chunk
    let action := chunkAction mem chunk.rcvd seekto
    action :: if chunk.endsPacket then [] else askedActions mem (action.seekto seekto) chunks

end ProvenAesd.Server
