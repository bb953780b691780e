import WireCut.Geometry.Bounds
import WireCut.Number.Decimal
import WireCut.Number.Literal
import WireCut.Number.Quantity

/-! The boxes of a window that hold a number. They keep it within limits. -/
namespace WireCut

structure SpeedBox where
  low : Quantity
  high : Quantity
  value : Quantity
deriving DecidableEq

namespace SpeedBox

/-- Set the value, or the limit that it passes. The same number in another form changes nothing. -/
def set (b : SpeedBox) (value : Quantity) : SpeedBox :=
  let next := (value.greater b.low).lesser b.high
  if next.same b.value then b else { b with value := next }

/-- A box that goes from a least speed to a thousand, or only stands at a least speed beyond that. It stands
at zero before it has limits. -/
def ofSpeeds (least speed : Quantity) : SpeedBox :=
  (set ⟨least, least.greater (.whole 1000), .whole 0⟩ (.whole 0)).set speed

end SpeedBox

structure ScaleBox where
  value : Float
deriving DecidableEq

namespace ScaleBox

def low : Float := 0.01

def high : Float := 100

def step : Float := 0.1

/-- The float nearest to the number with two places that is nearest to a float. A half goes to the even
neighbour. -/
def toPlaces (v : Float) : Float :=
  match Exact.ofFloat v with
  | .finite negative m e =>
    let (num, den) := Decimal.fraction m e
    Literal.scaled negative (Decimal.roundDiv (num * 100) den) (-2)
  | _ => v

def ofFloat (v : Float) : ScaleBox :=
  ⟨lesser (greater (toPlaces v) low) high⟩

end ScaleBox

end WireCut
