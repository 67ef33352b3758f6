import ProvenAesd.BlockHeap

/-! The ring of recent commands of `aesd-circular-buffer.c`, on a 64-bit kernel. -/
namespace ProvenAesd.Driver
open BlockHeap

/-- A value computed in `size_t`. -/
def sizeT (n : ℕ) : ℕ := n%2^64

def sizeSub (a b : ℕ) : ℕ := sizeT (a+(2^64-sizeT b))

theorem sizeT_of_lt {n : ℕ} (h : n < 2^64) : sizeT n = n := Nat.mod_eq_of_lt h

theorem sizeT_lt (n : ℕ) : sizeT n < 2^64 := Nat.mod_lt _ (by decide)

theorem sizeSub_of_le {a b : ℕ} (ha : a < 2^64) (h : b ≤ a) : sizeSub a b = a-b := by
  rw [sizeSub, sizeT_of_lt (h.trans_lt ha), sizeT, show a+(2^64-b) = a-b+2^64 by omega,
    Nat.add_mod_right, Nat.mod_eq_of_lt (by omega)]

abbrev aesdcharMaxWriteOperationsSupported : ℕ := 10

structure AesdBufferEntry where
  buffptr : Ptr
  size : ℕ
  deriving DecidableEq, Repr

instance : Inhabited AesdBufferEntry := ⟨.null, 0⟩

structure AesdCircularBuffer where
  entry : Vector AesdBufferEntry aesdcharMaxWriteOperationsSupported
  overflowEntry : AesdBufferEntry
  bufLen : ℕ
  inOffs : ℕ
  outOffs : ℕ
  full : Bool
  deriving DecidableEq, Repr

/-- Where a `struct aesd_buffer_entry *` handed out by the ring points. -/
inductive EntryPtr
  | slot (index : ℕ)
  | overflowEntry
  deriving DecidableEq, Repr

namespace AesdCircularBuffer

def slot (buffer : AesdCircularBuffer) (index : ℕ) : AesdBufferEntry :=
  (buffer.entry[index]?).getD default

def deref (buffer : AesdCircularBuffer) : EntryPtr → AesdBufferEntry
  | .slot index => buffer.slot index
  | .overflowEntry => buffer.overflowEntry

def setBuffptr (buffer : AesdCircularBuffer) (entryptr : EntryPtr) (p : Ptr) :
    AesdCircularBuffer :=
  match entryptr with
  | .slot index =>
    { buffer with entry := buffer.entry.setIfInBounds index { buffer.slot index with buffptr := p } }
  | .overflowEntry => { buffer with overflowEntry.buffptr := p }

end AesdCircularBuffer

def aesdCircularBufferInit : AesdCircularBuffer :=
  { entry := Vector.replicate aesdcharMaxWriteOperationsSupported default
    overflowEntry := default
    bufLen := 0
    inOffs := 0
    outOffs := 0
    full := false }

def aesdCircularBufferAddEntry (buffer : AesdCircularBuffer) (addEntry : AesdBufferEntry) :
    AesdCircularBuffer × Option EntryPtr :=
  -- the slot is copied out before it is overwritten
  let buffer := { buffer with overflowEntry := buffer.slot buffer.inOffs }
  let buffer :=
    { buffer with
      entry := buffer.entry.setIfInBounds buffer.inOffs addEntry
      bufLen := sizeT (buffer.bufLen+addEntry.size) }
  let buffer :=
    { buffer with inOffs := (buffer.inOffs+1)%aesdcharMaxWriteOperationsSupported }
  -- `full` is still that of the ring before the call
  if buffer.full = true then
    ({ buffer with
        bufLen := sizeSub buffer.bufLen buffer.overflowEntry.size
        outOffs := buffer.inOffs }, some .overflowEntry)
  else if buffer.inOffs = buffer.outOffs then
    ({ buffer with full := true }, none)
  else
    ({ buffer with full := false }, none)

/-- How the search loop ends: a slot and the offset within it, or nothing. -/
abbrev FindResult := Option (ℕ × ℕ)

/-- The do-while loop of the search; `none` when `fuel` iterations did not end it. -/
def findLoop (buffer : AesdCircularBuffer) (charOffset endindex : ℕ) :
    (fuel index curRunningOffset : ℕ) → Option FindResult
  | 0, _, _ => none
  | fuel+1, index, curRunningOffset =>
    let prevRunningOffset := curRunningOffset
    let curRunningOffset := sizeT (curRunningOffset+(buffer.slot index).size)
    if sizeT (charOffset+1) ≤ curRunningOffset then
      some (some (index, sizeSub charOffset prevRunningOffset))
    else
      let index := (index+1)%aesdcharMaxWriteOperationsSupported
      -- a full ring starts at `endindex`, and ends there only after a lap
      if index ≠ endindex then
        findLoop buffer charOffset endindex fuel index curRunningOffset
      else some none

/-- The pointer returned and the value left in `*entry_offset_byte_rtn`. Ten
iterations visit every index below ten, so the loop ends whenever `in_offs` is one. -/
def aesdCircularBufferFindEntryOffsetForFpos (buffer : AesdCircularBuffer)
    (charOffset entryOffsetByteRtn : ℕ) : Option EntryPtr × ℕ :=
  if buffer.full = false ∧ buffer.inOffs = buffer.outOffs then (none, entryOffsetByteRtn)
  else
    match findLoop buffer charOffset buffer.inOffs aesdcharMaxWriteOperationsSupported
        buffer.outOffs 0 with
    | some (some (index, offset)) => (some (.slot index), offset)
    | _ => (none, entryOffsetByteRtn)

namespace AesdCircularBuffer

theorem slot_setIfInBounds (buffer : AesdCircularBuffer) {i : ℕ} (hi : i < 10)
    (e : AesdBufferEntry) :
    slot { buffer with entry := buffer.entry.setIfInBounds i e } =
      Function.update buffer.slot i e := by
  funext j
  by_cases hj : j = i
  · subst hj
    simp [slot, hi]
  · simp [slot, Function.update_of_ne hj, Vector.getElem?_setIfInBounds_ne (Ne.symm hj)]

@[simp] theorem slot_init (i : ℕ) : aesdCircularBufferInit.slot i = default := by
  by_cases hi : i < 10
  · simp [slot, aesdCircularBufferInit, hi]
  · simp [slot, aesdCircularBufferInit, hi]

end AesdCircularBuffer

end ProvenAesd.Driver
