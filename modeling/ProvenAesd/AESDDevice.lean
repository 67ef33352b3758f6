import ProvenAesd.AESDCircularBuffer

/-! The character device of `main.c`: the shared device structure and the file
operations that act on it. An operation's arguments carry what its callees decide
(the allocator, the copies to and from user space), and a file position is the
64-bit word that holds it. -/
namespace ProvenAesd.Driver
open BlockHeap

structure AesdDev where
  aesdDevBuffer : AesdCircularBuffer
  nextReadPosition : ℕ
  aesdWorkingEntry : AesdBufferEntry

structure DriverState where
  heap : Heap
  aesdDevice : AesdDev

abbrev EFAULT : ℤ := 14
abbrev ENOMEM : ℤ := 12
abbrev EINVAL : ℤ := 22
abbrev ERESTARTSYS : ℤ := 512

abbrev newline : UInt8 := 10

/-- The device as `aesd_init_module` leaves it. -/
def aesdInitModule : DriverState :=
  { heap := Heap.empty
    aesdDevice :=
      { aesdDevBuffer := aesdCircularBufferInit
        nextReadPosition := 0
        aesdWorkingEntry := ⟨.null, 0⟩ } }

/-- The bytes an entry stands for. -/
def entryBytes (heap : Heap) (e : AesdBufferEntry) : List UInt8 :=
  (heap.contents e.buffptr).take e.size

structure ReadCall where
  count : ℕ
  copyFault : Bool

structure ReadOutcome where
  retval : ℤ
  fpos : ℕ
  data : List UInt8
  state : DriverState

/-- `devp->nextReadPosition = *f_pos`, before the lock is taken. -/
def aesdReadStore (s : DriverState) (fpos : ℕ) : DriverState :=
  { s with aesdDevice.nextReadPosition := sizeT fpos }

/-- `aesd_read` from `mutex_lock` to its return. -/
def aesdReadLocked (s : DriverState) (fpos : ℕ) (call : ReadCall) : ReadOutcome :=
  let devp := s.aesdDevice
  match aesdCircularBufferFindEntryOffsetForFpos devp.aesdDevBuffer
      (sizeT devp.nextReadPosition) 0 with
  | (none, _) =>
    { retval := 0
      fpos := fpos
      data := []
      state := { s with aesdDevice.nextReadPosition := 0 } }
  | (some readEntryPtr, offWithinEntry) =>
    let readEntry := devp.aesdDevBuffer.deref readEntryPtr
    let retsize := sizeSub readEntry.size offWithinEntry
    let retsize := if retsize > call.count then call.count else retsize
    if call.copyFault then
      { retval := -EFAULT
        fpos := fpos
        data := []
        state := s }
    else
      { retval := retsize
        fpos := sizeT (fpos+retsize)
        data := ((s.heap.contents readEntry.buffptr).drop offWithinEntry).take retsize
        state :=
          { s with aesdDevice.nextReadPosition := sizeT (devp.nextReadPosition+retsize) } }

def aesdRead (s : DriverState) (fpos : ℕ) (call : ReadCall) : ReadOutcome :=
  aesdReadLocked (aesdReadStore s fpos) fpos call

/-- A call of `aesd_write`: the user's `count` bytes, how many of them
`copy_from_user` fails to copy, the allocator's decision, and the byte an
out-of-range access would meet. A count is a non-negative `ssize_t`. -/
structure WriteCall where
  buf : List UInt8
  notCopied : ℕ
  alloc : AllocChoice
  stray : UInt8
  count_lt : buf.length < 2^63
  notCopied_le : notCopied ≤ buf.length

namespace WriteCall

def count (call : WriteCall) : ℕ := call.buf.length

def copied (call : WriteCall) : ℕ := call.count-call.notCopied

def data (call : WriteCall) : List UInt8 := call.buf.take call.copied

end WriteCall

def wholeWrite (alloc : AllocChoice) (buf : List UInt8) (hb : buf.length < 2^63) : WriteCall :=
  ⟨buf, 0, alloc, 0, hb, Nat.zero_le _⟩

def plainWrite (buf : List UInt8) (hb : buf.length < 2^63) : WriteCall :=
  wholeWrite (.grant true fun _ => 0) buf hb

structure WriteOutcome where
  retval : ℤ
  fpos : ℕ
  state : DriverState
  /-- Whether the call gets to its `mutex_unlock`. -/
  returns : Bool
  /-- The bytes handed over to the ring, if any. -/
  committed : Option (List UInt8)
  /-- The bytes of the entry released to make room, if any. -/
  lost : Option (List UInt8)

/-- The `krealloc` of the working entry. -/
def growWorkingEntry (s : DriverState) (call : WriteCall) : Heap × Ptr :=
  let entry := s.aesdDevice.aesdWorkingEntry
  s.heap.krealloc entry.buffptr (sizeT (entry.size+call.count)) call.alloc

/-- `memset` and `copy_from_user` behind the bytes already there, and the new size. -/
def appendUserData (heap : Heap) (buffptr : Ptr) (size : ℕ) (call : WriteCall) :
    Heap × AesdBufferEntry :=
  let heap := heap.store buffptr size (List.replicate call.count 0)
  let heap := heap.store buffptr size call.data
  (heap, ⟨buffptr, sizeT (size+call.copied)⟩)

/-- Moves the working entry into the ring, releases the entry it displaces, and
resets the working entry. -/
def commitWorkingEntry (s : DriverState) : DriverState × Option (List UInt8) :=
  let entry := s.aesdDevice.aesdWorkingEntry
  let (buffer, retPtr) := aesdCircularBufferAddEntry s.aesdDevice.aesdDevBuffer entry
  match retPtr with
  -- what the pointer leads to is the overflow entry, whose slot has been reused
  | some retPtr =>
    ({ heap := s.heap.kfree (buffer.deref retPtr).buffptr
       aesdDevice :=
        { s.aesdDevice with
          aesdDevBuffer := buffer.setBuffptr retPtr .null
          aesdWorkingEntry := ⟨.null, 0⟩ } },
      some (entryBytes s.heap (buffer.deref retPtr)))
  | none =>
    ({ s with
       aesdDevice :=
        { s.aesdDevice with
          aesdDevBuffer := buffer
          aesdWorkingEntry := ⟨.null, 0⟩ } }, none)

/-- The last byte of the working entry, as `buffptr[totalBufSize - 1]` fetches it. -/
def lastByte (heap : Heap) (entry : AesdBufferEntry) (stray : UInt8) : UInt8 :=
  heap.load entry.buffptr (sizeSub entry.size 1) stray

def aesdWrite (s : DriverState) (fpos : ℕ) (call : WriteCall) : WriteOutcome :=
  let (heap, buffptr) := growWorkingEntry s call
  let size := s.aesdDevice.aesdWorkingEntry.size
  -- the pointer is stored before it is tested, the size stays
  if buffptr = .null then
    { retval := -ENOMEM
      fpos := fpos
      state := { heap, aesdDevice := { s.aesdDevice with aesdWorkingEntry.buffptr := .null } }
      returns := true
      committed := none
      lost := none }
  else
    let (heap, entry) := appendUserData heap buffptr size call
    let s : DriverState := { heap, aesdDevice := { s.aesdDevice with aesdWorkingEntry := entry } }
    -- nothing is mapped around `ZERO_SIZE_PTR`, so the newline test faults
    if entry.buffptr = .zeroSize then
      { retval := call.copied
        fpos := fpos
        state := s
        returns := false
        committed := none
        lost := none }
    else if lastByte heap entry call.stray = newline then
      let (s', lost) := commitWorkingEntry s
      { retval := call.copied
        fpos := sizeT (fpos+call.copied)
        state := s'
        returns := true
        committed := some (entryBytes heap entry)
        lost := lost }
    else
      { retval := call.copied
        fpos := sizeT (fpos+call.copied)
        state := s
        returns := true
        committed := none
        lost := none }

structure SeekOutcome where
  retval : ℤ
  fpos : ℕ
  deriving DecidableEq

def foreachIndices : List ℕ := List.range aesdcharMaxWriteOperationsSupported

/-- How the loop of `aesd_adjust_file_offset` ends: the position found, an offset
past the entry, or no such entry. -/
inductive AdjustResult
  | found (pos : ℕ)
  | badOffset
  | notFound
  deriving DecidableEq

def adjustLoop (buffer : AesdCircularBuffer) (writecmd writecmdOffset : ℕ) :
    (indices : List ℕ) → (pos : ℕ) → AdjustResult
  | [], _ => .notFound
  | index :: indices, pos =>
    let entry := buffer.slot index
    if entry.buffptr ≠ .null then
      if index = writecmd then
        if writecmdOffset > entry.size then .badOffset
        else .found (sizeT (pos+writecmdOffset))
      else adjustLoop buffer writecmd writecmdOffset indices (sizeT (pos+entry.size))
    else adjustLoop buffer writecmd writecmdOffset indices pos

/-- `aesd_adjust_file_offset`; `fpos` is `filp->f_pos`. -/
def aesdAdjustFileOffset (s : DriverState) (fpos writecmd writecmdOffset : ℕ) : SeekOutcome :=
  if writecmd ≥ aesdcharMaxWriteOperationsSupported then
    { retval := -EINVAL, fpos }
  else
    let buffer := s.aesdDevice.aesdDevBuffer
    if buffer.full = false ∧ buffer.inOffs = buffer.outOffs then
      { retval := -EINVAL, fpos }
    else
      match adjustLoop buffer writecmd writecmdOffset foreachIndices 0 with
      | .found pos =>
        { retval := 0, fpos := pos }
      | .badOffset | .notFound =>
        { retval := -EINVAL, fpos }

structure AesdSeekto where
  writeCmd : UInt32
  writeCmdOffset : UInt32
  deriving DecidableEq, Repr

/-- `_IOWR(AESD_IOC_MAGIC, 1, struct aesd_seekto)`. -/
abbrev aesdcharIocseekto : ℕ := 3*2^30+8*2^16+0x16*2^8+1

/-- `aesd_ioctl`; `arg` is the structure `copy_from_user` fetches, unless it faults. -/
def aesdIoctl (s : DriverState) (fpos cmd : ℕ) (arg : Option AesdSeekto) : SeekOutcome :=
  if cmd = aesdcharIocseekto then
    match arg with
    | none => { retval := -ERESTARTSYS, fpos }
    | some seekto =>
      aesdAdjustFileOffset s fpos seekto.writeCmd.toNat seekto.writeCmdOffset.toNat
  else { retval := -EINVAL, fpos }

inductive Whence
  | seekSet
  | seekCur
  | seekEnd
  | other (whence : ℤ)
  deriving DecidableEq

/-- Where a seek with `off` and `whence` aims on a file of `size` bytes. -/
def Whence.target (whence : Whence) (fpos : ℕ) (off : ℤ) (size : ℕ) : ℤ :=
  match whence with
  | .seekSet => off
  | .seekCur => fpos+off
  | _ => size+off

/-- The seeks whose outcome depends on the target alone. -/
def Whence.Plain (whence : Whence) (off : ℤ) : Prop :=
  whence = .seekSet ∨ (whence = .seekCur ∧ off ≠ 0) ∨ whence = .seekEnd

/-- The kernel's `fixed_size_llseek`, as far as its documentation fixes it: it
returns a value and leaves a file position. -/
structure FixedSizeLlseek where
  seek (fpos : ℕ) (off : ℤ) (whence : Whence) (size : ℕ) : ℤ × ℕ
  accepts (fpos : ℕ) (off : ℤ) (whence : Whence) (size : ℕ) : whence.Plain off →
    0 ≤ whence.target fpos off size → whence.target fpos off size ≤ size →
    seek fpos off whence size =
      (whence.target fpos off size, (whence.target fpos off size).toNat)
  rejects (fpos : ℕ) (off : ℤ) (whence : Whence) (size : ℕ) : whence.Plain off →
    ¬(0 ≤ whence.target fpos off size ∧ whence.target fpos off size ≤ size) →
    (seek fpos off whence size).1 < 0 ∧ (seek fpos off whence size).2 = fpos

def aesdLlseek (kernel : FixedSizeLlseek) (s : DriverState) (fpos : ℕ) (off : ℤ)
    (whence : Whence) : SeekOutcome :=
  let (retval, fpos) := kernel.seek fpos off whence s.aesdDevice.aesdDevBuffer.bufLen
  { retval, fpos }

end ProvenAesd.Driver
