import WireCut.Number.Exact

/-! Drawing calls: the instructions of a graphics pipeline that paint the viewport, and paintings, which are
the calls that were made until a computation failed. -/
namespace WireCut

inductive Capability where
  | depthTest
  | lineSmooth
  | blend
deriving DecidableEq

inductive MatrixMode where
  | projection
  | modelView
deriving DecidableEq

inductive Primitive where
  | points
  | lines
  | lineStrip
deriving DecidableEq

inductive DrawCall where
  | clearColor (red green blue alpha : Float)
  | disable (capability : Capability)
  | enable (capability : Capability)
  | blendBySourceAlpha
  | viewport (x y width height : Int)
  | matrixMode (mode : MatrixMode)
  | loadIdentity
  | ortho (left right bottom top near far : Int)
  | clear
  | translate (x y z : Float)
  | scale (x y z : Float)
  | multMatrix (entries : List Float)
  | lineWidth (width : Float)
  | pointSize (size : Float)
  | color3 (red green blue : Float)
  | color4 (red green blue alpha : Float)
  | start (primitive : Primitive)
  | vertex (x y : Float)
  | stop
deriving DecidableEq

structure Painting where
  calls : List DrawCall
  failure : Option ArithmeticError
deriving DecidableEq

namespace Painting

def ofParts : List (Except ArithmeticError (List DrawCall)) → Painting
  | [] => ⟨[], none⟩
  | .error reason :: _ => ⟨[], some reason⟩
  | .ok calls :: parts =>
    let after := ofParts parts
    ⟨calls ++ after.calls, after.failure⟩

end Painting

end WireCut
