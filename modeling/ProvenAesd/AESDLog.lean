import ProvenAesd.AESDSeekRange
import ProvenAesd.AESDStoredLength
import ProvenAesd.AESDWriteConservation
import ProvenAesd.RingSlots

/-! The device as its users see it: a log of lines that is read through its last ten,
with a position for every open handle. The driver refines it, call by call. -/
namespace ProvenAesd.Driver
open BoundedQueue ConcatOffset Mealy DriverState

inductive LogCall (H : Type*)
  | openFile (h : H)
  | read (h : H) (call : ReadCall)
  | write (h : H) (call : WriteCall)
  | llseek (h : H) (kernel : FixedSizeLlseek) (off : ℤ) (whence : Whence)
  | seekTo (h : H) (seekto : AesdSeekto)

structure LogReply where
  retval : ℤ
  data : List UInt8
  deriving DecidableEq

/-- Every line ever completed, the line that is being written, and the positions. -/
structure Log (H : Type*) where
  lines : List (List UInt8)
  pending : List UInt8
  fpos : H → ℕ

variable {H : Type*} [DecidableEq H]

namespace Log

def kept (l : Log H) : List (List UInt8) := newest 10 l.lines

def move (l : Log H) (h : H) (p : ℕ) : Log H := { l with fpos := Function.update l.fpos h p }

/-- A read ends with the line that holds its position. -/
def read (l : Log H) (h : H) (call : ReadCall) : Log H × LogReply :=
  if l.kept.flatten.length ≤ l.fpos h then (l, ⟨0, []⟩)
  else if call.copyFault then (l, ⟨-EFAULT, []⟩)
  else
    let data := pieceAt l.kept (l.fpos h) call.count
    (l.move h (l.fpos h+data.length), ⟨data.length, data⟩)

def write (l : Log H) (h : H) (data : List UInt8) : Log H × LogReply :=
  let line := l.pending ++ data
  let l := l.move h (l.fpos h+data.length)
  if line.getLast? = some newline then
    ({ l with lines := l.lines ++ [line], pending := [] }, ⟨data.length, []⟩)
  else ({ l with pending := line }, ⟨data.length, []⟩)

def llseek (l : Log H) (h : H) (kernel : FixedSizeLlseek) (off : ℤ) (whence : Whence) :
    Log H × LogReply :=
  let (retval, p) := kernel.seek (l.fpos h) off whence l.kept.flatten.length
  (l.move h p, ⟨retval, []⟩)

/-- The commands are counted as they lie in the slots of the ring. -/
def seekTo (l : Log H) (h : H) (seekto : AesdSeekto) : Log H × LogReply :=
  let slots := slotOrder 10 l.lines
  match slots[seekto.writeCmd.toNat]? with
  | none => (l, ⟨-EINVAL, []⟩)
  | some line =>
    if line.length < seekto.writeCmdOffset.toNat then (l, ⟨-EINVAL, []⟩)
    else
      (l.move h ((slots.take seekto.writeCmd.toNat).flatten.length+seekto.writeCmdOffset.toNat),
        ⟨0, []⟩)

end Log

def logOf : Machine (Log H) (LogCall H) LogReply where
  step l
    | .openFile h => (l.move h 0, ⟨0, []⟩)
    | .read h call => l.read h call
    | .write h call => l.write h call.data
    | .llseek h kernel off whence => l.llseek h kernel off whence
    | .seekTo h seekto => l.seekTo h seekto

structure Files (H : Type*) where
  dev : DriverState
  fpos : H → ℕ

def Files.move (s : Files H) (dev : DriverState) (h : H) (p : ℕ) : Files H :=
  ⟨dev, Function.update s.fpos h p⟩

def files : Machine (Files H) (LogCall H) LogReply where
  step s
    | .openFile h => (s.move s.dev h 0, ⟨0, []⟩)
    | .read h call =>
      let o := aesdRead s.dev (s.fpos h) call
      (s.move o.state h o.fpos, ⟨o.retval, o.data⟩)
    | .write h call =>
      let o := aesdWrite s.dev (s.fpos h) call
      (s.move o.state h o.fpos, ⟨o.retval, []⟩)
    | .llseek h kernel off whence =>
      let o := aesdLlseek kernel s.dev (s.fpos h) off whence
      (s.move s.dev h o.fpos, ⟨o.retval, []⟩)
    | .seekTo h seekto =>
      let o := aesdIoctl s.dev (s.fpos h) aesdcharIocseekto (some seekto)
      (s.move s.dev h o.fpos, ⟨o.retval, []⟩)

/-- The write finds memory and a byte to store, no position leaves `loff_t`, as the
kernel sees to it, and the command of a seek has a slot. -/
def CallOk (s : Files H) : LogCall H → Prop
  | .openFile _ => True
  | .read h call => s.fpos h+call.count < 2^63
  | .write h call => WriteOk s.dev (s.fpos h, call) ∧ s.fpos h+call.count < 2^63
  | .llseek _ _ _ _ => True
  | .seekTo _ seekto => seekto.writeCmd.toNat < 10

instance (s : Files H) (call : LogCall H) : Decidable (CallOk s call) :=
  match call with
  | .openFile _ | .llseek _ _ _ _ => inferInstanceAs (Decidable True)
  | .read h call => inferInstanceAs (Decidable (s.fpos h+call.count < 2^63))
  | .write h call =>
    inferInstanceAs (Decidable (WriteOk s.dev (s.fpos h, call) ∧ s.fpos h+call.count < 2^63))
  | .seekTo _ seekto => inferInstanceAs (Decidable (seekto.writeCmd.toNat < 10))

/-- The device holds the last lines of the log, and its ring has turned with them. -/
structure Refines (s : Files H) (l : Log H) : Prop where
  reach : Reachable s.dev
  intact : s.dev.Intact
  kept_eq : s.dev.liveBytes = l.kept
  pending_eq : s.dev.pendingBytes = l.pending
  inOffs_eq : s.dev.buffer.inOffs = l.lines.length%10
  fpos_eq : s.fpos = l.fpos

section Device

variable {s : DriverState}

theorem Reachable.call (hs : Reachable s) (call : DriverCall) : Reachable (driver.step s call).1 := by
  obtain ⟨calls, rfl⟩ := hs
  exact ⟨calls ++ [call], Machine.final_append ..⟩

theorem Reachable.read (hs : Reachable s) (fpos : ℕ) (call : ReadCall) :
    Reachable (aesdRead s fpos call).state :=
  (hs.call (.readStore fpos)).call (.readLocked fpos call)

theorem handedOver_inOffs (buffer : AesdCircularBuffer) (e : AesdBufferEntry) :
    (handedOverRing buffer e).inOffs = (buffer.inOffs+1)%10 := by
  obtain ⟨o, ho⟩ := handedOverRing_eq buffer e
  rw [ho]
  simp only [aesdCircularBufferAddEntry]
  split_ifs <;> rfl

end Device

end ProvenAesd.Driver
