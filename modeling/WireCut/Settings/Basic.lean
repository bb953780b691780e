import WireCut.Playback.Basic
import WireCut.Settings.Profile

/-! Settings in use: the values of a profile as numbers and texts. -/
namespace WireCut

structure Settings where
  name : String
  speed : Option Quantity
  scale : Float
  lineWidthFactor : Float
  arcStepDegrees : Quantity
  canvasWidth : Quantity
  canvasHeight : Quantity
  minSpeed : Quantity
  minZoom : Float
  maxZoom : Float
  backgroundColor : String
  strokeColor : String
  highlightColor : String
deriving DecidableEq

namespace Settings

private def quantity (p : Profile) (s : Setting) : Quantity :=
  ((p s).quantity?.orElse fun _ => (Profile.default s).quantity?).getD (.whole 0)

private def number (p : Profile) (s : Setting) : Float :=
  (quantity p s).nearest

private def string (p : Profile) (s : Setting) : String :=
  match p s with
  | .str cs => String.ofList (cs.map Char.ofNat)
  | _ => ""

/-- The settings of a profile. A number that is missing is the standard one, but a speed may be missing. -/
def ofProfile (p : Profile) : Settings :=
  { name := string p .name
    speed := (p .speed).quantity?
    scale := number p .scale
    lineWidthFactor := number p .lineWidthFactor
    arcStepDegrees := quantity p .arcStepDegrees
    canvasWidth := quantity p .canvasWidth
    canvasHeight := quantity p .canvasHeight
    minSpeed := ((p .minSpeed).quantity?).getD (.whole 1)
    minZoom := number p .minZoom
    maxZoom := number p .maxZoom
    backgroundColor := string p .backgroundColor
    strokeColor := string p .strokeColor
    highlightColor := string p .highlightColor }

def ofPreset (preset : Preset) : Settings := ofProfile preset.profile

def setup (s : Settings) (followed : Bool) : Setup :=
  ⟨s.minSpeed, s.lineWidthFactor, followed⟩

def surface (s : Settings) : Surface := .ofSize s.canvasWidth s.canvasHeight

end Settings

end WireCut
