import Std.Data.HashSet
import WireCut.Geometry.Stroke
import WireCut.Number.Quantity
import WireCut.Surface.Transform

/-! The drawing surface. Strokes are kept in drawing units until the surface is cleared, and a transform
places them on the screen. -/
namespace WireCut

/-- A surface with its size in pixels, its strokes with the newest first, the width of the next stroke, and
its transform. -/
structure Surface where
  width : Quantity
  height : Quantity
  drawn : List Stroke
  lineWidth : Float
  transform : Transform
deriving DecidableEq

structure Statistics where
  strokes : Nat
  lines : Nat
  arcs : Nat
  length : Float
  sourceLines : Nat
  outOfRange : Nat
deriving DecidableEq

namespace Surface

def ofSize (width height : Quantity) : Surface :=
  ⟨width, height, [], 1, .identity⟩

def strokes (s : Surface) : List Stroke :=
  s.drawn.reverse

def setTransform (s : Surface) (t : Transform) : Surface :=
  { s with transform := t }

/-- Whether a surface has a center: the halves of its size are not beyond all floats. -/
def hasCenter (s : Surface) : Bool :=
  s.width.halves && s.height.halves

/-- Put the logical origin at the center, with the second axis upward. -/
def center (s : Surface) : Surface :=
  s.setTransform ((s.transform.translate s.width.nearestHalf s.height.nearestHalf).scale 1 (-1))

def setSize (s : Surface) (width height : Quantity) : Surface :=
  { s with width, height, transform := .identity }

def resize (s : Surface) (width height : Quantity) : Surface :=
  (s.setSize width height).center

def clear (s : Surface) : Surface :=
  { s with drawn := [] }

def wipe (s : Surface) : Surface :=
  (s.setTransform .identity).clear

def strokeOf (s : Surface) (line : Int) (shape : Shape) : Stroke :=
  ⟨line, s.lineWidth, shape⟩

def draw (s : Surface) (line : Int) (shape : Shape) : Surface :=
  { s with drawn := s.strokeOf line shape :: s.drawn }

def ofLine (s : Surface) (line : Int) : List Stroke :=
  s.strokes.filter (·.line = line)

def widen (box? : Option Bounds) (stroke : Stroke) : Except ArithmeticError (Option Bounds) :=
  stroke.shape.bounds.map fun other? =>
    match box?, other? with
    | some box, some other => some (box.join other)
    | some box, none => some box
    | none, other? => other?

def boundsOf (strokes : List Stroke) : Except ArithmeticError (Option Bounds) :=
  strokes.foldlM widen none

/-- The box around everything on a surface. A surface without finite points has its box at the origin. -/
def bounds (s : Surface) : Except ArithmeticError Bounds :=
  (boundsOf s.strokes).map (·.getD .nothing)

/-- Counts and lengths of the strokes. Lengths are added from the oldest stroke on. -/
def statistics (s : Surface) : Statistics :=
  let strokes := s.strokes
  { strokes := strokes.length
    lines := strokes.countP (·.shape.isStraight)
    arcs := strokes.countP (!·.shape.isStraight)
    length := strokes.foldl (fun total stroke => total + stroke.shape.length) 0
    sourceLines := (Std.HashSet.ofList (strokes.map Stroke.line)).size
    outOfRange := strokes.countP (!·.shape.isFinite) }

@[simp] theorem strokes_draw (s : Surface) (line : Int) (shape : Shape) :
    (s.draw line shape).strokes = s.strokes ++ [s.strokeOf line shape] := by
  simp [strokes, draw]

@[simp] theorem strokes_clear (s : Surface) : s.clear.strokes = [] := rfl

@[simp] theorem strokes_wipe (s : Surface) : s.wipe.strokes = [] := rfl

end Surface

end WireCut
