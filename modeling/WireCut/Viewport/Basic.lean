import WireCut.Json.Reader
import WireCut.Settings.Basic
import WireCut.Viewport.Call

/-! The viewport: it paints the strokes of a surface through the transform of the surface, with a zoom and a
pan of its own that never reach the surface. -/
namespace WireCut

structure Color where
  red : Float
  green : Float
  blue : Float
deriving DecidableEq

/-- A color from a hash sign and three or six digits to base sixteen. Any other text is black. -/
def Color.ofText (text : String) : Color :=
  let part (n : Nat) : Float := Float.ofNat n / 255
  match text.toList.map Json.hexDigit? with
  | [none, some r, some g, some b] => ⟨part (17 * r), part (17 * g), part (17 * b)⟩
  | [none, some r, some r', some g, some g', some b, some b'] =>
    ⟨part (16 * r + r'), part (16 * g + g'), part (16 * b + b')⟩
  | _ => ⟨0, 0, 0⟩

/-- A viewport: the line whose strokes stand out, with minus one for none, the zoom, the pan in pixels, the
last place of the mouse, and the size in pixels. -/
structure Viewport where
  activeLine : Int
  zoom : Float
  panX : Int
  panY : Int
  mouseX : Int
  mouseY : Int
  width : Int
  height : Int
deriving DecidableEq

namespace Viewport

def initial : Viewport := ⟨-1, 1, 0, 0, 0, 0, 0, 0⟩

def press (v : Viewport) (x y : Int) : Viewport :=
  { v with mouseX := x, mouseY := y }

def drag (v : Viewport) (x y : Int) (left : Bool) : Viewport :=
  let moved := if left then { v with panX := v.panX + (x - v.mouseX), panY := v.panY + (y - v.mouseY) } else v
  moved.press x y

/-- The factor of a turn of the wheel: a tenth for each notch, which is 120 units. -/
def wheelFactor (delta : Int) : Except ArithmeticError Float :=
  (Quantity.whole delta).toFloat.bind fun units =>
    let factor := Float.pow 1.1 (units / 120)
    if factor.isInf then .error .powerTooLarge else .ok factor

def zoomBy (v : Viewport) (factor : Float) (settings : Settings) : Viewport :=
  { v with zoom := lesser (greater (v.zoom * factor) settings.minZoom) settings.maxZoom }

def resetView (v : Viewport) : Viewport :=
  { v with zoom := 1, panX := 0, panY := 0 }

def prepareCalls (settings : Settings) : List DrawCall :=
  let c := Color.ofText settings.backgroundColor
  [.clearColor c.red c.green c.blue 1, .disable .depthTest, .enable .lineSmooth, .enable .blend,
    .blendBySourceAlpha]

def resizeCalls (width height : Int) : List DrawCall :=
  [.viewport 0 0 width height, .matrixMode .projection, .loadIdentity, .ortho 0 width height 0 (-1) 1]

/-- Place the surface. The zoom is around the middle of the viewport, and the pan is outermost. -/
def frameParts (v : Viewport) (t : Transform) : List (Except ArithmeticError (List DrawCall)) :=
  let middle : Except ArithmeticError (Float × Float) := do
    let x ← (Quantity.whole v.width).half
    let y ← (Quantity.whole v.height).half
    return (x, y)
  let pan : Except ArithmeticError (Float × Float) := do
    let x ← (Quantity.whole v.panX).toFloat
    let y ← (Quantity.whole v.panY).toFloat
    return (x, y)
  [.ok [.clear, .matrixMode .modelView, .loadIdentity],
    do
      let (x, y) ← middle
      let (panX, panY) ← pan
      return [.translate (panX + x) (panY + y) 0, .scale v.zoom v.zoom 1, .translate (-x) (-y) 0,
        .multMatrix [t.a, t.b, 0, 0, t.c, t.d, 0, 0, 0, 0, 1, 0, t.e, t.f, 0, 1]]]

/-- Half of what a viewport shows of an axis: half of its size and the whole pan, both in units of the
surface. -/
def reach (v : Viewport) (size pan : Int) : Except ArithmeticError Float := do
  let size ← (Quantity.whole size).toFloat
  let half ← (Quantity.float (2 * v.zoom)).dividing size
  let pan ← (Quantity.whole pan.natAbs).toFloat
  let rest ← (Quantity.float v.zoom).dividing pan
  return half + rest

def axisParts (v : Viewport) : List (Except ArithmeticError (List DrawCall)) :=
  [.ok [.lineWidth 1, .color4 0.4 0.4 0.4 0.6],
    do
      let halfWidth ← v.reach v.width v.panX
      let halfHeight ← v.reach v.height v.panY
      return [.start .lines, .vertex (-halfWidth) 0, .vertex halfWidth 0, .vertex 0 (-halfHeight),
        .vertex 0 halfHeight, .stop]]

/-- Paint the outline of a stroke: nothing without points, a dot for an arc of one point, and else a
polyline. -/
def outlineCalls (width : Float) (shape : Shape) (points : List Point) : List DrawCall :=
  match points with
  | [] => []
  | [p] => if shape.isStraight then [] else [.pointSize width, .start .points, .vertex p.x p.y, .stop]
  | _ => .start .lineStrip :: points.map (fun p => .vertex p.x p.y) ++ [.stop]

def strokeParts (v : Viewport) (settings : Settings) (s : Stroke) :
    List (Except ArithmeticError (List DrawCall)) :=
  let c := Color.ofText (if s.line = v.activeLine then settings.highlightColor else settings.strokeColor)
  let width := greater 1 (s.width * v.zoom)
  [.ok [.lineWidth width, .color3 c.red c.green c.blue],
    (s.shape.pointsBy settings.arcStepDegrees).map (outlineCalls width s.shape)]

def paint (v : Viewport) (settings : Settings) (s : Surface) : Painting :=
  .ofParts (v.frameParts s.transform ++ v.axisParts ++ s.strokes.flatMap (v.strokeParts settings))

end Viewport

end WireCut
