import WireCut.Editor.Basic
import WireCut.Playback.Bench
import WireCut.Viewport.Basic
import WireCut.Window.Controls

/-! The window of the simulator. It holds an editor, a viewport and the controls of playback, and the session
that they all show. A change of the text, of the scale or of the settings makes a new session. -/
namespace WireCut

inductive WindowTask where
  | refresh
  | wake (wakeUp : WakeUp)
deriving DecidableEq

structure Notice where
  title : String
  text : String
deriving DecidableEq

/-- A window. The last session is the current one, and earlier ones are kept because they may still be woken.
The console and the notices have the newest first, and so have the tasks that were asked for with their
delays. -/
structure Window where
  settings : Settings
  editor : Editor
  viewport : Viewport
  surface : Surface
  sessions : List Session
  speedBox : SpeedBox
  scaleBox : ScaleBox
  preset : Preset
  status : String
  statistics : String
  console : List String
  notices : List Notice
  asked : List (Int × WindowTask)
deriving DecidableEq

def Mode.label : Mode → String
  | .idle => "Idle"
  | .stepping => "Stepping"
  | .running => "Running"
  | .paused => "Paused"
  | .finished => "Finished"

def Playback.status (p : Playback) : String :=
  p.mode.label ++ " " ++ Decimal.digitText p.cursor ++ "/" ++ Decimal.digitText p.program.size

def DistanceMode.label : DistanceMode → String
  | .absolute => "G90"
  | .relative => "G91"

def Playback.statistics (p : Playback) (s : Surface) : List String :=
  let stats := s.statistics
  let point (q : Point) := "(" ++ Decimal.fixed 3 q.x ++ ", " ++ Decimal.fixed 3 q.y ++ ")"
  ["Statistics:",
    "Commands: " ++ Decimal.digitText p.program.size,
    "Ignored params/codes: " ++ Decimal.digitText p.diagnostics.length,
    "",
    "Toolpath:",
    "Segments: " ++ Decimal.digitText stats.strokes,
    "Lines: " ++ Decimal.digitText stats.lines,
    "Arcs: " ++ Decimal.digitText stats.arcs,
    "Length: " ++ Decimal.fixed 2 stats.length,
    "",
    "Machine State:",
    "Position: " ++ point p.machine.position,
    "Origin: " ++ point p.machine.origin,
    "Mode: " ++ p.machine.mode.label,
    "Scale: " ++ Decimal.plain.float p.machine.scale]

structure Handled where
  window : Window
  failure : Option ArithmeticError
deriving DecidableEq

namespace Handled

def done (w : Window) : Handled := ⟨w, none⟩

def andThen (h : Handled) (next : Window → Handled) : Handled :=
  if h.failure.isSome then h else next h.window

def completed (h : Handled) (change : Window → Window) : Handled :=
  h.andThen fun w => done (change w)

end Handled

namespace Window

def current (w : Window) : Nat :=
  w.sessions.length - 1

def session? (w : Window) : Option Session :=
  w.sessions.getLast?

def ask (w : Window) (delay : Int) (task : WindowTask) : Window :=
  { w with asked := (delay, task) :: w.asked }

def print (w : Window) (line : String) : Window :=
  { w with console := line :: w.console }

def notify (w : Window) (title text : String) : Window :=
  { w with notices := ⟨title, text⟩ :: w.notices }

def refresh (w : Window) : Window :=
  match w.session? with
  | none => w
  | some session =>
    { w with
      status := session.playback.status
      statistics := String.intercalate "\n" (session.playback.statistics w.surface) }

def findings (w : Window) (line : Int) : List String :=
  match w.session? with
  | none => []
  | some session => (Diagnostic.ofLine (session.playback.log.getD []).reverse line).map Diagnostic.text

/-- Follow the execution to a line, with minus one for none. What was found on the line is printed, and the
state is shown again when the command is done. -/
def follow (w : Window) (line : Int) : Window :=
  let seen := { w with viewport := { w.viewport with activeLine := line } }
  let printed := if 0 ≤ line then (seen.findings line).foldl print seen else seen
  printed.ask 0 .refresh

def applyMark (w : Window) (change : MarkChange) : Window :=
  match w.editor.applyMark change with
  | (editor, none) => { w with editor }
  | (editor, some line) => follow { w with editor } line

def settle (w : Window) (index : Nat) (played : Played) : Window :=
  played.marks.foldl applyMark
    { w with
      surface := played.surface
      sessions := w.sessions.modify index fun s => { s with playback := played.playback } }

def update (w : Window) (change : Playback → Playback) : Window :=
  { w with sessions := w.sessions.modify w.current fun s => { s with playback := change s.playback } }

/-- Open a session for the text and the controls. The old one stays the current one until its marks are
gone. -/
def openSession (w : Window) : Window :=
  let opening :=
    Session.create (w.settings.setup true) w.editor.text (some w.speedBox.value) w.scaleBox.value w.surface
  let cleared := opening.marks.foldl applyMark { w with surface := opening.surface }
  refresh { cleared with sessions := cleared.sessions ++ [opening.session] }

/-- Replace the current session by one for the text and the controls. The old one is stopped first. It stays
if the speed is beyond all floats, and also if the surface has no center, but then its drawing is gone. -/
def rebuild (w : Window) : Handled :=
  let stopped := w.update Playback.pause
  if !w.speedBox.value.fits then ⟨stopped, some .tooLarge⟩
  else if !w.surface.hasCenter then ⟨{ stopped with surface := w.surface.wipe }, some .quotientTooLarge⟩
  else .done stopped.openSession

/-- Replace the text. The editor shows its cursor last. -/
def edit (w : Window) (text : String) : Handled :=
  (rebuild { w with editor := w.editor.setText text }).completed fun rebuilt =>
    { rebuilt with editor := rebuilt.editor.refresh }

def sample : String :=
  String.intercalate "\n"
    ["; Wire-EDM sample: a slot with rounded ends",
      "G90",
      "G92",
      "G01 X-20 Y0",
      "G01 X-20 Y20",
      "G02 X20 Y20 I20 J0",
      "G01 X20 Y0",
      "G02 X-20 Y0 I-20 J0",
      "; relative moves",
      "G91",
      "G01 X0 Y-10",
      "G03 X10 Y-10 I10 J0",
      "M02"]

def blank (settings : Settings) : Window :=
  { settings
    editor := Editor.empty.setMarkColor settings.highlightColor
    viewport := .initial
    surface := settings.surface
    sessions := []
    speedBox := .ofSpeeds settings.minSpeed (settings.speed.getD settings.minSpeed)
    scaleBox := .ofFloat settings.scale
    preset := .default
    status := "Idle"
    statistics := "Statistics:\nNo G-code loaded"
    console := []
    notices := []
    asked := [] }

/-- A window with a text, or with the sample program. The session is made once for the text and once for the
complete window. -/
def create (settings : Settings) (text : Option String) : Window :=
  (((blank settings).edit (text.getD sample)).andThen rebuild).window

end Window

end WireCut
