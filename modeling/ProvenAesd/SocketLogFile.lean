import ProvenAesd.LockedSections
import ProvenAesd.SocketScan

/-! The server without `USE_AESD_CHAR_DEVICE`: all session threads and the timer
threads that write time stamps share one descriptor of a regular file, and take
`g_mutex` for what they do to it. -/
namespace ProvenAesd.Server
open LockedSections Mealy Driver

/-- The file behind `g_logFileFd`, with the one offset of that descriptor. -/
structure LogFile where
  content : List UInt8
  offset : ℕ

/-- `write` to a descriptor with `O_APPEND`. -/
def LogFile.append (file : LogFile) (bytes : List UInt8) : LogFile where
  content := file.content ++ bytes
  offset := (file.content ++ bytes).length

/-- What the callees of a statement answer; each looks at its own part. -/
structure LogAnswer where
  /-- A chunk, or the end of the stream or an error. -/
  recv : Option Chunk
  /-- The bytes that `write`, `read` or `send` can take at once, if it does not fail. -/
  count : Option ℕ
  /-- The time of `localtime` and `strftime`, if they do not fail. -/
  outstr : Option (List UInt8)

inductive FilePc
  | lockMutex
  | seekEnd
  | recv
  | handle (chunk : Chunk)
  | rewind
  | read
  | send (data : List UInt8)
  | unlockMutex
  | shutdown
  | ended
  | exited

/-- `sendAndReceiveThread` on the shared file, and what it has done there so far. -/
structure FileSession where
  pc : FilePc
  buf : List UInt8
  received : List Chunk
  written : List UInt8
  /-- What was read for the client, and how much of it `send` took. -/
  reply : List (List UInt8 × ℕ)
  readFailed : Bool

namespace FileSession

def own (x : FileSession) (a : LogAnswer) : FileSession :=
  match x.pc, a.recv, a.count with
  | .recv, none, _ => { x with pc := .rewind }
  | .recv, some chunk, _ =>
    { x with
      pc := .handle chunk
      buf := recvInto x.buf chunk
      received := x.received ++ [chunk] }
  | .send _, _, none => { x with pc := .exited }
  | .send data, _, some n => { x with pc := .read, reply := x.reply ++ [(data, n)] }
  | .shutdown, _, _ => { x with pc := .ended }
  | _, _, _ => x

/-- The write of a chunk, which has to take all of it. -/
def writeChunk (file : LogFile) (x : FileSession) (chunk : Chunk) : Option ℕ → LogFile × FileSession
  | none => (file, { x with pc := .exited })
  | some n =>
    let bytes := (x.buf.take chunk.rcvd).take n
    (file.append bytes,
      { x with
        written := x.written ++ bytes
        pc :=
          if bytes.length = chunk.rcvd then if chunk.endsPacket then .rewind else .recv
          else .exited })

/-- `read(logFileFd, readBuf, 1024)`; it returns at least a byte, if there is one. -/
def readSome (file : LogFile) (x : FileSession) : Option ℕ → LogFile × FileSession
  | none => (file, { x with pc := .unlockMutex, readFailed := true })
  | some n =>
    let data := (file.content.drop file.offset).take (min bufSize (n+1))
    if data = [] then (file, { x with pc := .unlockMutex })
    else ({ file with offset := file.offset+data.length }, { x with pc := .send data })

def shared (file : LogFile) (x : FileSession) (a : LogAnswer) : LogFile × FileSession :=
  match x.pc with
  | .seekEnd => ({ file with offset := file.content.length }, { x with pc := .recv })
  | .handle chunk =>
    -- the `ioctl` fails, since a regular file does not know its request
    if strncmpEq x.buf seekPrefix 19 then (file, { x with pc := .exited })
    else writeChunk file x chunk a.count
  | .rewind => ({ file with offset := 0 }, { x with pc := .read })
  | .read => readSome file x a.count
  | _ => (file, x)

def kind (x : FileSession) : Kind :=
  match x.pc with
  | .lockMutex => .lock
  | .seekEnd | .handle _ | .rewind | .read => .shared
  | .unlockMutex => .unlock
  | .recv | .send _ | .shutdown | .ended | .exited => .own

def inside (x : FileSession) : Bool :=
  match x.pc with
  | .lockMutex | .shutdown | .ended => false
  | _ => true

def exited (x : FileSession) : Bool :=
  match x.pc with
  | .exited => true
  | _ => false

def locked (x : FileSession) : FileSession where
  pc := .seekEnd
  buf := x.buf
  received := []
  written := []
  reply := []
  readFailed := false

def sent (x : FileSession) : List UInt8 := (x.reply.map fun p => p.1.take p.2).flatten

end FileSession

inductive TimerPc
  | localtime
  | lockMutex
  | seekEnd
  /-- What is still to be written; nothing before the unlock. -/
  | write (parts : List (List UInt8))
  | ended
  /-- `exit`, with the mutex locked or not. -/
  | exited (inside : Bool)

/-- `timerHandlerFunction`, once the file and the mutex are there. -/
structure TimerThread where
  pc : TimerPc
  outstr : List UInt8
  written : List UInt8
  /-- Some write came short, which goes unnoticed. -/
  short : Bool

namespace TimerThread

/-- "timestamp:" -/
def stampPrefix : List UInt8 := [116, 105, 109, 101, 115, 116, 97, 109, 112, 58]

def own (x : TimerThread) (a : LogAnswer) : TimerThread :=
  match x.pc, a.outstr with
  | .localtime, none => { x with pc := .exited false }
  | .localtime, some outstr => { x with pc := .lockMutex, outstr := outstr }
  | _, _ => x

def writePart (file : LogFile) (x : TimerThread) (part : List UInt8) (parts : List (List UInt8)) :
    Option ℕ → LogFile × TimerThread
  | none => (file, { x with pc := .exited true })
  | some n =>
    (file.append (part.take n),
      { x with
        written := x.written ++ part.take n
        short := x.short || n < part.length
        pc := .write parts })

def shared (file : LogFile) (x : TimerThread) (a : LogAnswer) : LogFile × TimerThread :=
  match x.pc with
  | .seekEnd =>
    -- the offset is cut to the 32 bits of `rc` before it is compared with -1
    let rc := Int32.ofNat file.content.length
    ({ file with offset := file.content.length },
      { x with pc := if rc = -1 then .exited true else .write [stampPrefix, x.outstr, [newline]] })
  | .write (part :: parts) => writePart file x part parts a.count
  | _ => (file, x)

def kind (x : TimerThread) : Kind :=
  match x.pc with
  | .lockMutex => .lock
  | .seekEnd | .write (_ :: _) => .shared
  | .write [] => .unlock
  | .localtime | .ended | .exited _ => .own

def inside (x : TimerThread) : Bool :=
  match x.pc with
  | .localtime | .lockMutex | .ended => false
  | .exited inside => inside
  | .seekEnd | .write _ => true

def exited (x : TimerThread) : Bool :=
  match x.pc with
  | .exited _ => true
  | _ => false

def locked (x : TimerThread) : TimerThread where
  pc := .seekEnd
  outstr := x.outstr
  written := []
  short := false

def line (x : TimerThread) : List UInt8 := stampPrefix ++ x.outstr ++ [newline]

end TimerThread

inductive LogThread
  | session (x : FileSession)
  | timer (x : TimerThread)

namespace LogThread

def inside : LogThread → Bool
  | session x => x.inside
  | timer x => x.inside

def written : LogThread → List UInt8
  | session x => x.written
  | timer x => x.written

def program : Program LogFile LogThread LogAnswer where
  kind
    | session x => x.kind
    | timer x => x.kind
  own
    | session x, a => session (x.own a)
    | timer x, a => timer (x.own a)
  shared
    | file, session x, a => (x.shared file a).map id session
    | file, timer x, a => (x.shared file a).map id timer
  locked
    | session x => session x.locked
    | timer x => timer x.locked
  unlocked
    | session x => session { x with pc := .shutdown }
    | timer x => timer { x with pc := .ended }
  exits
    | session x => x.exited
    | timer x => x.exited

end LogThread

theorem FileSession.side (x : FileSession) : Kind.Side x.kind x.inside := by
  unfold FileSession.kind FileSession.inside
  cases x.pc <;> trivial

theorem TimerThread.side (x : TimerThread) : Kind.Side x.kind x.inside := by
  unfold TimerThread.kind TimerThread.inside
  rcases x.pc with _ | _ | _ | (_ | _) | _ | _ <;> trivial

end ProvenAesd.Server
