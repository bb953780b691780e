import WireCut.Text.File
import WireCut.Window.Basic

/-! A simulator is a window with the agenda of its timers. The user acts on the window, and only the agenda
runs its timers. -/
namespace WireCut

/-- What the user can do with a window. A path that is empty stands for a dialog that was cancelled, and a
saved text comes with the reason why it could not be written, if there is one. -/
inductive WindowEvent where
  | step
  | run
  | pause
  | reset
  | edit (text : String)
  | opened (path : String) (content : FileContent)
  | saved (path : String) (failure : Option FileError)
  | choosePreset (preset : Preset)
  | chooseSpeed (speed : Int)
  | chooseScale (scale : Float)
  | resize (width height : Int)
  | activate (line : Int)
  | press (x y : Int)
  | drag (x y : Int) (left : Bool)
  | wheel (delta : Int)
  | resetView

namespace Window

def step (w : Window) : Window :=
  match w.session? with
  | none => w
  | some session => (w.settle w.current (session.playback.step w.surface).1).refresh

def run (w : Window) : Window :=
  match w.session? with
  | none => w
  | some session =>
    let (playback, waiting) := session.playback.run
    let next := w.update fun _ => playback
    refresh (if waiting then next.ask 0 (.wake ⟨w.current, playback.generation⟩) else next)

/-- Return to the start of the current session. On a surface without a center the run ends and the drawing is
gone, but the session stays where it is. -/
def reset (w : Window) : Handled :=
  match w.session? with
  | none => .done w
  | some session =>
    if w.surface.hasCenter then .done (w.settle w.current (session.playback.reset w.surface)).refresh
    else ⟨{ w.update Playback.abandon with surface := w.surface.wipe }, some .quotientTooLarge⟩

def load (w : Window) (path : String) (content : FileContent) : Handled :=
  if path.isEmpty then .done w
  else match content.text with
    | .ok cs => (w.edit (String.ofList cs)).completed fun edited => edited.print ("Loaded: " ++ path)
    | .error reason => .done (w.notify "Open failed" ("Cannot open " ++ path ++ ":\n" ++ reason.message))

def tellSaved (w : Window) (path : String) (failure : Option FileError) : Window :=
  if path.isEmpty then w
  else match failure with
    | none => w.print ("Saved: " ++ path)
    | some reason => w.notify "Save failed" ("Cannot save " ++ path ++ ":\n" ++ reason.message)

def choosePreset (w : Window) (preset : Preset) : Handled :=
  if preset = w.preset then .done w
  else
    let settings := Settings.ofPreset preset
    let switched :=
      { w with
        settings
        preset
        editor := w.editor.setMarkColor settings.highlightColor
        speedBox := w.speedBox.set (settings.speed.getD settings.minSpeed)
        scaleBox := .ofFloat settings.scale }
    (switched.print ("Switched to " ++ settings.name ++ " preset")).rebuild

/-- Choose the speed of the current session. It holds from the next wake-up on. A speed beyond all floats only
stands in the box. -/
def chooseSpeed (w : Window) (speed : Int) : Handled :=
  let speedBox := w.speedBox.set (.whole speed)
  if speedBox.value.same w.speedBox.value then .done w
  else if !speedBox.value.fits then ⟨{ w with speedBox }, some .tooLarge⟩
  else .done (update { w with speedBox } fun p => p.setSpeed (some speedBox.value))

def chooseScale (w : Window) (scale : Float) : Handled :=
  let scaleBox := ScaleBox.ofFloat scale
  if scaleBox.value == w.scaleBox.value then .done w else rebuild { w with scaleBox }

def view (w : Window) (change : Viewport → Viewport) : Window :=
  { w with viewport := change w.viewport }

def wheel (w : Window) (delta : Int) : Handled :=
  match Viewport.wheelFactor delta with
  | .ok factor => .done (w.view (·.zoomBy factor w.settings))
  | .error reason => ⟨w, some reason⟩

/-- Give the viewport and the surface a size, which may leave the surface without a center. -/
def resize (w : Window) (width height : Int) : Handled :=
  let surface := w.surface.setSize (.whole width) (.whole height)
  let sized := { w.view (fun v => { v with width, height }) with surface }
  if surface.hasCenter then .done { sized with surface := surface.center } else ⟨sized, some .quotientTooLarge⟩

def handle (w : Window) : WindowEvent → Handled
  | .step => .done w.step
  | .run => .done w.run
  | .pause => .done (w.update Playback.pause).refresh
  | .reset => w.reset
  | .edit text => w.edit text
  | .opened path content => w.load path content
  | .saved path failure => .done (w.tellSaved path failure)
  | .choosePreset preset => w.choosePreset preset
  | .chooseSpeed speed => w.chooseSpeed speed
  | .chooseScale scale => w.chooseScale scale
  | .resize width height => w.resize width height
  | .activate line => .done (w.view fun v => { v with activeLine := line })
  | .press x y => .done (w.view (·.press x y))
  | .drag x y left => .done (w.view (·.drag x y left))
  | .wheel delta => w.wheel delta
  | .resetView => .done (w.view Viewport.resetView)

def release (w : Window) : Window × List (Int × WindowTask) :=
  ({ w with asked := [] }, w.asked.reverse)

def react (w : Window) (_ : Int) (task : WindowTask) : Reaction Window WindowTask ArithmeticError :=
  match task with
  | .refresh => ⟨w.refresh, [], none⟩
  | .wake wakeUp =>
    match w.sessions[wakeUp.session]? with
    | none => ⟨w, [], none⟩
    | some session =>
      let woken := session.playback.wake w.surface wakeUp.generation
      let (next, posts) := (w.settle wakeUp.session woken.played).release
      match woken.delay with
      | .error reason => ⟨next, posts, some reason⟩
      | .ok none => ⟨next, posts, none⟩
      | .ok (some delay) => ⟨next, posts ++ [(delay, task)], none⟩

def remaining (w : Window) : Nat :=
  w.sessions.foldr (fun session rest => session.playback.remaining + rest) 0

end Window

structure Simulator where
  window : Window
  agenda : Agenda WindowTask
deriving DecidableEq

namespace Simulator

def ofWindow (agenda : Agenda WindowTask) (w : Window) : Simulator :=
  let (window, posts) := w.release
  ⟨window, agenda.scheduleAll posts⟩

def start (settings : Settings) (text : Option String) : Simulator :=
  ofWindow .empty (.create settings text)

/-- Let the user act. The tasks that were asked for before an action broke off are kept. -/
def handle (s : Simulator) (event : WindowEvent) : Simulator × Option ArithmeticError :=
  let handled := s.window.handle event
  (ofWindow s.agenda handled.window, handled.failure)

/-- The number of tasks that can still run: each waiting one, and two for each command that is left, since a
command shows the state again and wakes its session for the next one. -/
def budget (s : Simulator) : Nat :=
  s.agenda.pending + 2 * s.window.remaining

def wait (s : Simulator) (ms : Int) : Simulator × Except ArithmeticError Nat :=
  let run := s.agenda.advance Window.react s.budget ms s.window
  (⟨run.world, run.agenda⟩, match run.failure with
    | some reason => .error reason
    | none => .ok run.calls)

end Simulator

end WireCut
