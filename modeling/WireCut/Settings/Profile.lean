import WireCut.Json.Printer

/-! Profiles: the settings of the simulator as they stand in a file. A profile has a JSON value for each
setting, and three profiles are built in. -/
namespace WireCut

inductive Setting where
  | name
  | speed
  | scale
  | lineWidthFactor
  | arcStepDegrees
  | canvasWidth
  | canvasHeight
  | minSpeed
  | minZoom
  | maxZoom
  | backgroundColor
  | strokeColor
  | highlightColor
deriving DecidableEq

namespace Setting

def all : List Setting :=
  [.name, .speed, .scale, .lineWidthFactor, .arcStepDegrees, .canvasWidth, .canvasHeight, .minSpeed, .minZoom,
    .maxZoom, .backgroundColor, .strokeColor, .highlightColor]

def key : Setting → String
  | .name => "name"
  | .speed => "speed"
  | .scale => "scale"
  | .lineWidthFactor => "line_width_factor"
  | .arcStepDegrees => "arc_step_degrees"
  | .canvasWidth => "canvas_width"
  | .canvasHeight => "canvas_height"
  | .minSpeed => "min_speed"
  | .minZoom => "min_zoom"
  | .maxZoom => "max_zoom"
  | .backgroundColor => "background_color"
  | .strokeColor => "stroke_color"
  | .highlightColor => "highlight_color"

def ofKey? (key : CodePoints) : Option Setting :=
  all.find? fun s => CodePoints.ofString s.key = key

theorem mem_all (s : Setting) : s ∈ all := by cases s <;> decide

end Setting

inductive DepthError where
  | reading (container : Json.Container)
  | writing
deriving DecidableEq

def DepthError.message : DepthError → String
  | .reading container =>
    "maximum recursion depth exceeded while decoding a JSON " ++ container.name ++ " from a unicode string"
  | .writing => "maximum recursion depth exceeded"

abbrev Profile := Setting → Json

namespace Profile

def set (p : Profile) (s : Setting) (value : Json) : Profile :=
  fun t => if t = s then value else p t

def default : Profile
  | .name => .ofString "Default"
  | .speed => .int 5
  | .scale => .float 1
  | .lineWidthFactor => .float 1.5
  | .arcStepDegrees => .float 5
  | .canvasWidth => .int 800
  | .canvasHeight => .int 600
  | .minSpeed => .int 1
  | .minZoom => .float 0.1
  | .maxZoom => .float 5
  | .backgroundColor => .ofString "#1e1e1e"
  | .strokeColor => .ofString "#4dabf7"
  | .highlightColor => .ofString "#ffd43b"

def variant (name : String) (speed : Int) (scale lineWidthFactor arcStepDegrees : Float) : Profile :=
  default
    |>.set .name (.ofString name)
    |>.set .speed (.int speed)
    |>.set .scale (.float scale)
    |>.set .lineWidthFactor (.float lineWidthFactor)
    |>.set .arcStepDegrees (.float arcStepDegrees)

def toJson (p : Profile) : Json :=
  .obj (Setting.all.map fun s => (CodePoints.ofString s.key, p s))

def text (p : Profile) : String :=
  p.toJson.text

def maxRoom : Nat := 993

/-- The text that is written for a profile, unless one of its values is nested too deeply to be copied. -/
def save (p : Profile) : Except DepthError String :=
  if Setting.all.all fun s => (p s).room ≤ maxRoom then .ok p.text else .error .writing

/-- The standard settings, overridden by the known keys among a list of fields. The last occurrence of a
key decides. -/
def ofFields (fields : List (CodePoints × Json)) : Profile :=
  fields.foldl (fun p field =>
    match Setting.ofKey? field.1 with
    | some s => p.set s field.2
    | none => p) default

def sameValue (a b : Json) : Bool :=
  match a, b with
  | .str s, .str t => s = t
  | a, b =>
    match a.number?, b.number? with
    | some x, some y => x.same y
    | _, _ => false

def isDefault (p : Profile) : Bool :=
  Setting.all.all fun s => sameValue (p s) (default s)

end Profile

inductive Preset where
  | default
  | fine
  | coarse
deriving DecidableEq

namespace Preset

def all : List Preset := [.default, .fine, .coarse]

def name : Preset → String
  | .default => "default"
  | .fine => "fine"
  | .coarse => "coarse"

def ofName? (name : String) : Option Preset :=
  all.find? (·.name = name)

def profile : Preset → Profile
  | .default => .default
  | .fine => .variant "Fine" 10 4 0.75 2
  | .coarse => .variant "Coarse" 20 0.5 3 10

/-- The preset that a name in any case names, or else the standard one. No letter outside ASCII has one of
the letters of these names as its small form. -/
def ofName (name : String) : Preset :=
  (ofName? (String.ofList (name.toList.map Char.toLower))).getD .default

end Preset

end WireCut
