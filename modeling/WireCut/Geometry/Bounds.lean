import WireCut.Geometry.Point

/-! Bounding boxes of points. -/
namespace WireCut

structure Bounds where
  low : Point
  high : Point
deriving DecidableEq

/-- The lesser of two numbers, and the first one if they are equal. -/
def lesser (a b : Float) : Float :=
  if b < a then b else a

def greater (a b : Float) : Float :=
  if a < b then b else a

namespace Bounds

def ofPoint (p : Point) : Bounds := ⟨p, p⟩

def join (a b : Bounds) : Bounds :=
  ⟨⟨lesser a.low.x b.low.x, lesser a.low.y b.low.y⟩, ⟨greater a.high.x b.high.x, greater a.high.y b.high.y⟩⟩

def ofPoints (ps : List Point) : Option Bounds :=
  match ps.filter Point.isFinite with
  | [] => none
  | p :: rest => some (rest.foldl (fun box q => box.join (ofPoint q)) (ofPoint p))

def nothing : Bounds := ofPoint .origin

end Bounds

end WireCut
