import WireCut.Machine.Instruction
import WireCut.Machine.Request
import WireCut.Machine.State
import WireCut.Program.Command

/-! Execution of one command. It changes the machine, and it may ask for a cut and report a problem. An
unknown code changes nothing. -/
namespace WireCut

structure Executed where
  machine : Machine
  request : Option Request
  report : Option Diagnostic

namespace Machine

def scaled? (m : Machine) (c : Command) (key : String) : Option Float :=
  (c.value? key).map (· * m.scale)

def coordinate (m : Machine) (value? : Option Float) (position origin : Float) : Float :=
  match value?, m.mode with
  | none, _ => position
  | some value, .absolute => value - origin
  | some value, .relative => position + value

def target (m : Machine) (c : Command) : Point :=
  ⟨m.coordinate (m.scaled? c "X") m.position.x m.origin.x,
    m.coordinate (m.scaled? c "Y") m.position.y m.origin.y⟩

/-- The arc of a circular cut. The center is given as an offset from the start, and the radius is the length
of that offset, so that the target only decides where the arc ends. -/
def arcOf (m : Machine) (c : Command) (clockwise : Bool) : Arc :=
  let i := (m.scaled? c "I").getD 0
  let j := (m.scaled? c "J").getD 0
  let start := m.position
  let stop := m.target c
  let center : Point := ⟨start.x + i, start.y + j⟩
  ⟨center, hypot i j, atan2 (start.y - center.y) (start.x - center.x),
    atan2 (stop.y - center.y) (stop.x - center.x), clockwise⟩

def perform (m : Machine) (c : Command) : Instruction → Machine × Option Request
  | .cut => (m.moveTo (m.target c), some (.linear c.line m.position (m.target c)))
  | .arc clockwise =>
    (m.moveTo (m.target c), some (.arc c.line m.position (m.target c) (m.arcOf c clockwise)))
  | .absolute => ({ m with mode := .absolute }, none)
  | .relative => ({ m with mode := .relative }, none)
  | .setOrigin => (m.setOrigin, none)
  | .finish => (m, some (.finish c.line))

def unsupported (c : Command) : Diagnostic :=
  ⟨c.line, 0, c.raw.length, "Unsupported code: " ++ c.code, .meaning, .warning⟩

def outOfRange (c : Command) : Diagnostic :=
  ⟨c.line, 0, c.raw.length, "Motion out of range, not drawn: " ++ c.raw, .motion, .error⟩

/-- Execute a command. A cut out of range still moves the wire. -/
def execute (m : Machine) (c : Command) : Executed :=
  match Instruction.ofCode? c.code with
  | none => ⟨m, none, some (unsupported c)⟩
  | some instruction =>
    let (next, request) := m.perform c instruction
    ⟨next, request, if request.all Request.isFinite then none else some (outOfRange c)⟩

end Machine

end WireCut
