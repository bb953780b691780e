import WireCut.Number.Order

/-! Numbers as they are written: whole numbers of any size, floats, and the truth values as zero and one. They
are compared without rounding. -/
namespace WireCut

inductive Quantity where
  | truth (b : Bool)
  | whole (n : Int)
  | float (v : Float)
deriving DecidableEq

namespace Quantity

def exact : Quantity → Exact
  | .truth b => .ofInt (if b then 1 else 0)
  | .whole n => .ofInt n
  | .float v => .ofFloat v

def lt (a b : Quantity) : Bool :=
  match a, b with
  | .float v, .float w => v < w
  | _, _ => a.exact.lt b.exact

def same (a b : Quantity) : Bool :=
  a.exact.same b.exact

/-- The lesser of two quantities, and the first one if neither is. -/
def lesser (a b : Quantity) : Quantity :=
  if b.lt a then b else a

def greater (a b : Quantity) : Quantity :=
  if a.lt b then b else a

def isFinite : Quantity → Bool
  | .float v => v.isFinite
  | _ => true

/-- The nearest float, which is infinite for a whole number beyond all floats. -/
def nearest : Quantity → Float
  | .truth b => if b then 1 else 0
  | .whole n => Exact.nearest (n < 0) n.natAbs 0
  | .float v => v

/-- Whether a quantity is not a whole number beyond all floats. -/
def fits : Quantity → Bool
  | .whole n => (Quantity.whole n).nearest.isFinite
  | _ => true

def toFloat (q : Quantity) : Except ArithmeticError Float :=
  if q.fits then .ok q.nearest else .error .tooLarge

def nearestHalf : Quantity → Float
  | .truth b => if b then 0.5 else 0
  | .whole n => Exact.nearest (n < 0) n.natAbs (-1)
  | .float v => v / 2

/-- Whether the half of a quantity is not beyond all floats. A whole number may be, and have a half that is
not. -/
def halves : Quantity → Bool
  | .whole n => (Quantity.whole n).nearestHalf.isFinite
  | _ => true

def half (q : Quantity) : Except ArithmeticError Float :=
  if q.halves then .ok q.nearestHalf else .error .quotientTooLarge

def dividing (v : Float) : Quantity → Except ArithmeticError Float
  | .truth b => if b then .ok v else .error .wholeDivisionByZero
  | .whole n => if n = 0 then .error .wholeDivisionByZero else .ok (v / (Quantity.whole n).nearest)
  | .float w => if w == 0 then .error .divisionByZero else .ok (v / w)

end Quantity

end WireCut
