import WireCut.Geometry.Arc
import WireCut.Geometry.Bounds

/-! Strokes: what one command has drawn. A stroke with coordinates out of range is kept, but it has no
points, no length and no box. -/
namespace WireCut

inductive Shape where
  | line (start stop : Point)
  | arc (arc : Arc)
deriving DecidableEq

structure Stroke where
  line : Int
  width : Float
  shape : Shape
deriving DecidableEq

namespace Shape

def isFinite : Shape → Bool
  | line start stop => start.isFinite && stop.isFinite
  | arc a => a.isFinite

def isStraight : Shape → Bool
  | line .. => true
  | arc _ => false

def length : Shape → Float
  | line start stop => if start.isFinite && stop.isFinite then hypot (stop.x - start.x) (stop.y - start.y) else 0
  | arc a => a.length

def points (step : Float) : Shape → Except ArithmeticError (List Point)
  | line start stop => .ok (if start.isFinite && stop.isFinite then [start, stop] else [])
  | arc a => a.points step

def pointsBy (step : Quantity) : Shape → Except ArithmeticError (List Point)
  | line start stop => (line start stop).points step.nearest
  | arc a => a.pointsBy step

def bounds (s : Shape) : Except ArithmeticError (Option Bounds) :=
  (s.points 1).map Bounds.ofPoints

end Shape

end WireCut
