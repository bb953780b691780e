import WireCut.Geometry.Point

/-! The state of the machine: where the wire is, where it was, and how the next coordinates are read. -/
namespace WireCut

inductive DistanceMode where
  | absolute
  | relative
deriving DecidableEq

/-- The state of the machine. The scale never changes, and the cursor counts the commands that have been
executed. -/
structure Machine where
  position : Point
  previous : Point
  origin : Point
  mode : DistanceMode
  scale : Float
  cursor : Nat
deriving DecidableEq

namespace Machine

def powerOn (scale : Float) : Machine :=
  ⟨.origin, .origin, .origin, .absolute, scale, 0⟩

def reset (m : Machine) : Machine := powerOn m.scale

def moveTo (m : Machine) (p : Point) : Machine :=
  { m with position := p, previous := m.position }

def setOrigin (m : Machine) : Machine :=
  { m with origin := m.position }

def advance (m : Machine) : Machine :=
  { m with cursor := m.cursor + 1 }

end Machine

end WireCut
