import WireCut.Machine.Request
import WireCut.Surface.Basic

/-! The pen: it draws one stroke for each cut, and prepares a surface for a new drawing. -/
namespace WireCut

structure Pen where
  scale : Float
  widthFactor : Float
deriving DecidableEq

namespace Pen

def width (p : Pen) : Float := p.widthFactor * p.scale

def prepare (p : Pen) (s : Surface) : Surface :=
  { s.wipe.center with lineWidth := p.width }

end Pen

def Surface.render (s : Surface) (request : Option Request) : Surface :=
  match request with
  | none => s
  | some r =>
    match r.shape? with
    | none => s
    | some shape => s.draw r.line shape

end WireCut
