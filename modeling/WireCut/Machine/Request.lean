import WireCut.Geometry.Stroke

/-! Requests: what a command asks the pen to do. -/
namespace WireCut

inductive Request where
  | linear (line : Int) (start stop : Point)
  | arc (line : Int) (start stop : Point) (arc : Arc)
  | finish (line : Int)
deriving DecidableEq

namespace Request

def isFinite : Request → Bool
  | linear _ start stop => start.isFinite && stop.isFinite
  | arc _ start stop a => start.isFinite && stop.isFinite && a.isFinite
  | finish _ => true

def shape? : Request → Option Shape
  | linear _ start stop => some (.line start stop)
  | arc _ _ _ a => some (.arc a)
  | finish _ => none

def line : Request → Int
  | linear line .. => line
  | arc line .. => line
  | finish line => line

def isFinish : Request → Bool
  | finish _ => true
  | _ => false

end Request

end WireCut
