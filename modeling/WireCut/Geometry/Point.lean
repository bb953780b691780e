/-! Points of the drawing plane. -/
namespace WireCut

structure Point where
  x : Float
  y : Float
deriving DecidableEq

namespace Point

def origin : Point := ⟨0, 0⟩

def isFinite (p : Point) : Bool :=
  p.x.isFinite && p.y.isFinite

/-- The names of what can be done with a point. There is no number under such a name. -/
def operationNames : List String := ["copy", "get_axis", "to_tuple"]

def operationMessage : String := "float() argument must be a string or a real number, not 'method'"

/-- The coordinate on an axis that is named by a letter of either case. Any other axis is at zero. -/
def onAxis (p : Point) (axis : String) : Float :=
  if axis = "x" || axis = "X" then p.x
  else if axis = "y" || axis = "Y" then p.y
  else 0

def onAxis? (p : Point) (axis : String) : Option Float :=
  if operationNames.contains (String.ofList (axis.toList.map Char.toLower)) then none else some (p.onAxis axis)

end Point

end WireCut
