import WireCut.Window.Basic

/-! The layout of a window: what stands in it, and where. -/
namespace WireCut

/-- A part of a window. Rows and columns have a fixed division, and panes have one that the user can move,
with the sizes in pixels that they begin with. -/
inductive LayoutItem where
  | stretch
  | row (items : List LayoutItem)
  | column (items : List LayoutItem)
  | panes (sideBySide : Bool) (items : List LayoutItem) (sizes : List Nat)
  | button (text : String)
  | label (text : String)
  | choice (items : List String)
  | speedBox (low high : Quantity) (suffix : String)
  | scaleBox (low high step : Float)
  | editor
  | viewport
  | console

namespace Window

def title : String := "Wire-EDM G-Code Simulator"

def geometry : List Nat := [100, 100, 1400, 900]

def consoleHeight : Nat := 150

def statisticsFont : String × Nat := ("Courier", 9)

def fileButtons : List LayoutItem :=
  [.button "Load G-Code File", .button "Save G-Code"]

def presetChoice : LayoutItem :=
  .choice (Preset.all.map Preset.name)

def playbackButtons : List LayoutItem :=
  [.button "Step", .button "Run", .button "Pause", .button "Reset"]

def speedControl (w : Window) : LayoutItem :=
  .speedBox w.speedBox.low w.speedBox.high " cmd/s"

def scaleControl : LayoutItem :=
  .scaleBox ScaleBox.low ScaleBox.high ScaleBox.step

def controls (w : Window) : List LayoutItem :=
  fileButtons ++ [presetChoice] ++ playbackButtons ++ [w.speedControl, scaleControl]

def toolbar (w : Window) : LayoutItem :=
  .row (fileButtons ++ [.label "Preset:", presetChoice, .stretch] ++ playbackButtons
    ++ [.label "Speed:", w.speedControl, .label "Scale:", scaleControl, .label w.status])

def layout (w : Window) : LayoutItem :=
  .column
    [w.toolbar,
      .panes false
        [.panes true [.editor, .viewport, .label w.statistics] [450, 750, 200], .console] [750, 150]]

end Window

end WireCut
