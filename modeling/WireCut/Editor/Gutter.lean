import WireCut.Editor.Basic

/-! The line numbers beside the text. Lines are sixteen pixels high. -/
namespace WireCut

structure Rectangle where
  x : Int
  y : Int
  width : Int
  height : Int
deriving DecidableEq

def Rectangle.contains (a b : Rectangle) : Bool :=
  a.x ≤ b.x && a.y ≤ b.y && b.x + b.width ≤ a.x + a.width && b.y + b.height ≤ a.y + a.height

inductive GutterCall where
  | update (area : Rectangle)
  | scroll (dx dy : Int)
  | place (area : Rectangle)
deriving DecidableEq

inductive GutterPaint where
  | fill (area : Rectangle) (color : String)
  | number (area : Rectangle) (text color : String)
  | done
deriving DecidableEq

namespace Editor

def lineHeight : Int := 16

def resize (e : Editor) (width height : Int) : Editor × GutterCall :=
  ({ e with width, height, gutterWidth := e.numberWidth, gutterHeight := height },
    .place ⟨0, 0, e.numberWidth, height⟩)

def scroll (e : Editor) (area viewport : Rectangle) (dy : Int) : Editor × GutterCall :=
  let bare := { e with margin := none }
  (if area.contains viewport then bare.fitMargin else bare,
    if dy ≠ 0 then .scroll 0 dy else .update ⟨0, area.y, e.gutterWidth, area.height⟩)

/-- The numbers of the lines that lie in an area, from a line on whose top is given. At most `rows` lines are
looked at. -/
def numbersFrom (e : Editor) (area : Rectangle) : Nat → Nat → Int → List GutterPaint
  | 0, _, _ => []
  | rows + 1, line, top =>
    if top ≤ area.y + area.height - 1 then
      let color := if e.marked.contains line then "#ffd43b" else "#6c757d"
      let paint := GutterPaint.number ⟨0, top, e.gutterWidth - 3, lineHeight⟩ (Decimal.digitText (line + 1)) color
      (if area.y ≤ top + lineHeight then [paint] else []) ++ numbersFrom e area rows (line + 1) (top + lineHeight)
    else []

def paintNumbers (e : Editor) (area : Rectangle) : List GutterPaint :=
  let first := e.firstVisible.toNat
  let rows := if e.firstVisible < 0 then 0 else e.lineCount - first
  .fill area "#383838" :: numbersFrom e area rows first 0 ++ [.done]

end Editor

end WireCut
