import WireCut.Geometry.Point
import WireCut.Number.Exact

/-! Affine transforms from drawing units to pixels. -/
namespace WireCut

/-- The map that sends `(x, y)` to `(a·x + c·y + e, b·x + d·y + f)`. -/
structure Transform where
  a : Float
  b : Float
  c : Float
  d : Float
  e : Float
  f : Float
deriving DecidableEq

namespace Transform

def identity : Transform := ⟨1, 0, 0, 1, 0, 0⟩

def translate (t : Transform) (x y : Float) : Transform :=
  { t with e := t.a * x + t.c * y + t.e, f := t.b * x + t.d * y + t.f }

def scale (t : Transform) (x y : Float) : Transform :=
  { t with a := t.a * x, b := t.b * x, c := t.c * y, d := t.d * y }

def apply (t : Transform) (p : Point) : Point :=
  ⟨t.a * p.x + t.c * p.y + t.e, t.b * p.x + t.d * p.y + t.f⟩

/-- The point whose image is given. A transform without area has no such point. -/
def invert (t : Transform) (p : Point) : Except ArithmeticError Point :=
  let det := t.a * t.d - t.b * t.c
  let x := p.x - t.e
  let y := p.y - t.f
  if det == 0 then .error .divisionByZero
  else .ok ⟨(t.d * x - t.c * y) / det, (t.a * y - t.b * x) / det⟩

end Transform

end WireCut
