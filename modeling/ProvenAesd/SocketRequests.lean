import ProvenAesd.SocketDeviceLog
import ProvenAesd.SocketSeekFormat

/-! Clients that each ask for one thing: to add a line, or to be sent what follows a
position that they name in a command. -/
namespace ProvenAesd.Server
open BoundedQueue Mealy Driver Driver.DriverState

section Write

variable {l : Log Unit} {data : List UInt8}

theorem write_line (h : (l.pending ++ data).getLast? = some newline) :
    (l.write () data).1 = ⟨l.lines ++ [l.pending ++ data], [], fun _ => l.fpos ()+data.length⟩ := by
  simp only [Log.write, Log.move, h, if_true, update_unit]

theorem write_open (h : (l.pending ++ data).getLast? ≠ some newline) :
    (l.write () data).1 = ⟨l.lines, l.pending ++ data, fun _ => l.fpos ()+data.length⟩ := by
  simp only [Log.write, Log.move, h, if_false, update_unit]

end Write

section Step

variable {l : Log Unit} {c : Client}

end Step

end ProvenAesd.Server
