import WireCut.Geometry.Point
import WireCut.Number.Circular
import WireCut.Number.Quantity
import WireCut.Number.Remainder

/-! Circular arcs. Angles are in radians and grow counter-clockwise. -/
namespace WireCut

def halfTurn : Float := 3.141592653589793

def turn : Float := 2 * halfTurn

def degrees (angle : Float) : Float :=
  angle * (180 / halfTurn)

/-- The signed angle from one angle to another. Clockwise it decreases, counter-clockwise it increases, and
between equal angles it is zero. -/
def sweepBetween (start stop : Float) (clockwise : Bool) : Float :=
  if clockwise then -(modulo (start - stop) turn) else modulo (stop - start) turn

structure Arc where
  center : Point
  radius : Float
  startAngle : Float
  endAngle : Float
  clockwise : Bool
deriving DecidableEq

namespace Arc

def isFinite (a : Arc) : Bool :=
  a.center.isFinite && a.radius.isFinite && a.startAngle.isFinite && a.endAngle.isFinite

def sweep (a : Arc) : Float :=
  sweepBetween a.startAngle a.endAngle a.clockwise

def length (a : Arc) : Float :=
  if a.isFinite then a.radius * a.sweep.abs else 0

def pointAt (a : Arc) (angle : Float) : Point :=
  ⟨a.center.x + a.radius * cos angle, a.center.y + a.radius * sin angle⟩

def pieces (a : Arc) (step : Float) : Except ArithmeticError Nat :=
  if step == 0 then .error .divisionByZero
  else (Exact.ofFloat ((degrees a.sweep).abs / step)).ceil.map fun n => (max 8 n).toNat

/-- The corners of a polyline along an arc. An arc without sweep or radius is a single point, and one that
is not finite has no points. -/
def points (a : Arc) (step : Float) : Except ArithmeticError (List Point) :=
  if !a.isFinite then .ok []
  else
    let sweep := a.sweep
    if sweep == 0 || a.radius == 0 then .ok [a.pointAt a.startAngle]
    else (a.pieces step).map fun n =>
      (List.range (n + 1)).map fun i =>
        a.pointAt (a.startAngle + sweep * Float.ofNat i / Float.ofNat n)

def isCut (a : Arc) : Bool :=
  a.isFinite && !(a.sweep == 0 || a.radius == 0)

/-- The corners of a polyline for a step as it was written. Only an arc that is cut into pieces needs a step within
the range of floats. -/
def pointsBy (a : Arc) (step : Quantity) : Except ArithmeticError (List Point) :=
  if a.isCut && !step.fits then .error .tooLarge else a.points step.nearest

end Arc

end WireCut
