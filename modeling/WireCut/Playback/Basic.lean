import WireCut.Machine.Execute
import WireCut.Number.Quantity
import WireCut.Surface.Pen

/-! Playback of a program: command by command, or continuously at a speed. It never waits itself. A running
playback asks to be woken after some time, and a wake-up that belongs to an earlier run does nothing. -/
namespace WireCut

inductive Mode where
  | idle
  | stepping
  | running
  | paused
  | finished
deriving DecidableEq

inductive MarkChange where
  | mark (line : Int)
  | unmark (line : Int)
  | unmarkAll
deriving DecidableEq

/-- What all sessions on one surface have in common: the least speed, the width of a line at scale one, and
whether an editor follows the execution. -/
structure Setup where
  minimumSpeed : Quantity
  widthFactor : Float
  followed : Bool
deriving DecidableEq

/-- A program in execution. `marked` is the line that the editor marks, `generation` counts the runs that
have begun or ended, and `log` holds the diagnostics with the newest first, if they are kept. -/
structure Playback where
  setup : Setup
  program : Array Command
  machine : Machine
  speed : Quantity
  mode : Mode
  marked : Option Int
  generation : Nat
  log : Option (List Diagnostic)
deriving DecidableEq

structure Played where
  playback : Playback
  surface : Surface
  marks : List MarkChange

namespace Playback

def cursor (p : Playback) : Nat := p.machine.cursor

def pen (p : Playback) : Pen := ⟨p.machine.scale, p.setup.widthFactor⟩

def remaining (p : Playback) : Nat := p.program.size - p.cursor

def diagnostics (p : Playback) : List Diagnostic :=
  Diagnostic.sorted (p.log.getD []).reverse

def exhausted (p : Playback) : Bool :=
  p.mode = .finished || p.program.size ≤ p.cursor

def interval (p : Playback) : Except ArithmeticError Int :=
  (p.speed.dividing 1000).bind fun ms => (Exact.ofFloat ms).round

/-- Set the speed in commands per second. A speed that is missing, not finite or too low becomes the least
one. -/
def setSpeed (p : Playback) (speed : Option Quantity) : Playback :=
  match speed with
  | none => { p with speed := p.setup.minimumSpeed }
  | some v =>
    if !v.isFinite || v.lt p.setup.minimumSpeed then { p with speed := p.setup.minimumSpeed }
    else { p with speed := v }

def load (setup : Setup) (program : Array Command) (speed : Option Quantity) (scale : Float)
    (log : Option (List Diagnostic)) : Playback :=
  setSpeed
    { setup, program, machine := .powerOn scale, speed := setup.minimumSpeed, mode := .idle, marked := none,
      generation := 0, log } speed

def finish (p : Playback) : Playback :=
  { p with mode := .finished, generation := p.generation + 1 }

def record (p : Playback) (report : Option Diagnostic) : Playback :=
  match report with
  | none => p
  | some d => { p with log := p.log.map (d :: ·) }

def follow (p : Playback) (line : Int) : Playback × List MarkChange :=
  if p.setup.followed then
    ({ p with marked := some line }, (p.marked.map MarkChange.unmark).toList ++ [.mark line])
  else (p, [])

def settle (p : Playback) (ended : Bool) : Playback :=
  if ended || p.program.size ≤ p.cursor then p.finish
  else if p.mode = .running then p
  else { p with mode := .stepping }

def executeCommand (p : Playback) (s : Surface) (c : Command) : Played :=
  let done := p.machine.execute c
  let (followed, marks) := (p.record done.report).follow c.line
  let next := { followed with machine := done.machine.advance }
  ⟨next.settle (done.request.any Request.isFinish), s.render done.request, marks⟩

def step (p : Playback) (s : Surface) : Played × Bool :=
  if p.mode = .finished then (⟨p.finish, s, []⟩, false)
  else match p.program[p.cursor]? with
    | none => (⟨p.finish, s, []⟩, false)
    | some c => (p.executeCommand s c, true)

/-- Let no waiting wake-up reach the playback any more, and change nothing else. -/
def abandon (p : Playback) : Playback :=
  { p with generation := p.generation + 1 }

/-- Begin to run. The answer tells whether the playback has to be woken. -/
def run (p : Playback) : Playback × Bool :=
  if p.mode = .running then (p, false)
  else if p.exhausted then (p.finish, false)
  else ({ p with mode := .running, generation := p.generation + 1 }, true)

def pause (p : Playback) : Playback :=
  { p.abandon with mode := if p.mode = .running then .paused else p.mode }

/-- Return to the start of the program, and clear the drawing and the marks. Diagnostics are kept. -/
def reset (p : Playback) (s : Surface) : Played :=
  ⟨{ p with generation := p.generation + 1, machine := p.machine.reset, mode := .idle, marked := none },
    p.pen.prepare s, if p.setup.followed then [.unmarkAll] else []⟩

structure Woken where
  played : Played
  delay : Except ArithmeticError (Option Int)

def wake (p : Playback) (s : Surface) (generation : Nat) : Woken :=
  if generation = p.generation && p.mode = .running then
    let played := (p.step s).1
    ⟨played, if played.playback.mode = .running then played.playback.interval.map some else .ok none⟩
  else ⟨⟨p, s, []⟩, .ok none⟩

end Playback

end WireCut
