import WireCut.Agenda
import WireCut.Playback.Session

/-! A bench of sessions. They share one surface, one editor and one agenda, and only the agenda wakes a
running session. -/
namespace WireCut

structure WakeUp where
  session : Nat
  generation : Nat
deriving DecidableEq

/-- The sessions from the oldest to the newest, the surface they draw on, and the changes of marks that they
have made, with the newest first. -/
structure Desk where
  setup : Setup
  surface : Surface
  sessions : List Session
  marks : List MarkChange
deriving DecidableEq

structure Bench where
  desk : Desk
  agenda : Agenda WakeUp
deriving DecidableEq

inductive ViewChange where
  | resize (width height : Quantity)
  | set (transform : Transform)
  | translate (x y : Float)
  | scale (x y : Float)
  | center
deriving DecidableEq

def Surface.view (s : Surface) : ViewChange → Surface
  | .resize width height => s.resize width height
  | .set t => s.setTransform t
  | .translate x y => s.setTransform (s.transform.translate x y)
  | .scale x y => s.setTransform (s.transform.scale x y)
  | .center => s.center

/-- What can happen at a bench. Sessions are numbered from the oldest on. -/
inductive Event where
  | step (session : Nat)
  | run (session : Nat)
  | pause (session : Nat)
  | reset (session : Nat)
  | setSpeed (session : Nat) (speed : Option Quantity)
  | replace (old : Option Nat) (text : String) (speed : Option Quantity) (scale : Float)
  | advance (ms : Int)
  | runPending (limit : Nat)
  | view (change : ViewChange)
deriving DecidableEq

/-- What an event answers: nothing, whether a command was executed, the number of wake-ups, or why a wake-up
broke off. -/
inductive Reply where
  | nothing
  | executed (any : Bool)
  | calls (count : Nat)
  | failed (reason : ArithmeticError)
deriving DecidableEq

namespace Desk

def remaining (desk : Desk) : Nat :=
  desk.sessions.foldr (fun session rest => session.playback.remaining + rest) 0

def settle (desk : Desk) (index : Nat) (session : Session) (played : Played) : Desk :=
  { desk with
    surface := played.surface
    sessions := desk.sessions.set index { session with playback := played.playback }
    marks := played.marks.reverse ++ desk.marks }

def update (desk : Desk) (index : Nat) (change : Playback → Playback) : Desk :=
  { desk with sessions := desk.sessions.modify index fun s => { s with playback := change s.playback } }

def react (desk : Desk) (_ : Int) (wakeUp : WakeUp) : Reaction Desk WakeUp ArithmeticError :=
  match desk.sessions[wakeUp.session]? with
  | none => ⟨desk, [], none⟩
  | some session =>
    let woken := session.playback.wake desk.surface wakeUp.generation
    let next := desk.settle wakeUp.session session woken.played
    match woken.delay with
    | .error reason => ⟨next, [], some reason⟩
    | .ok none => ⟨next, [], none⟩
    | .ok (some delay) => ⟨next, [(delay, wakeUp)], none⟩

def stop (desk : Desk) : Option Nat → Desk
  | none => desk
  | some index => desk.update index Playback.pause

def opened (desk : Desk) (opening : Opened) : Desk :=
  { desk with
    surface := opening.surface
    sessions := desk.sessions ++ [opening.session]
    marks := opening.marks.reverse ++ desk.marks }

def replace (desk : Desk) (old : Option Nat) (text : String) (speed : Option Quantity) (scale : Float) : Desk :=
  let stopped := match old with
    | none => desk
    | some index => desk.update index Playback.pause
  stopped.opened (Session.create desk.setup text speed scale desk.surface)

end Desk

namespace Bench

def ofSurface (setup : Setup) (surface : Surface) : Bench :=
  ⟨⟨setup, surface, [], []⟩, .empty⟩

def start (setup : Setup) (surface : Surface) (text : String) (speed : Option Quantity) (scale : Float) : Bench :=
  ⟨(ofSurface setup surface).desk.replace none text speed scale, .empty⟩

private def ended (run : Run Desk WakeUp ArithmeticError) : Bench × Reply :=
  (⟨run.world, run.agenda⟩, match run.failure with
    | some reason => .failed reason
    | none => .calls run.calls)

/-- The number of wake-ups that can still happen: each waiting one, and one more for each command left. -/
def budget (b : Bench) : Nat :=
  b.agenda.pending + b.desk.remaining

/-- Let an event happen. An event of a session that does not exist does nothing. The speed and the size of an event are
taken as they are, and `attempt` looks at them first. -/
def perform (b : Bench) : Event → Bench × Reply
  | .step index =>
    match b.desk.sessions[index]? with
    | none => (b, .nothing)
    | some session =>
      let (played, any) := session.playback.step b.desk.surface
      ({ b with desk := b.desk.settle index session played }, .executed any)
  | .run index =>
    match b.desk.sessions[index]? with
    | none => (b, .nothing)
    | some session =>
      let (playback, waiting) := session.playback.run
      let desk := b.desk.update index fun _ => playback
      let agenda := if waiting then b.agenda.schedule 0 ⟨index, playback.generation⟩ else b.agenda
      (⟨desk, agenda⟩, .nothing)
  | .pause index => ({ b with desk := b.desk.update index Playback.pause }, .nothing)
  | .reset index =>
    match b.desk.sessions[index]? with
    | none => (b, .nothing)
    | some session =>
      ({ b with desk := b.desk.settle index session (session.playback.reset b.desk.surface) }, .nothing)
  | .setSpeed index speed => ({ b with desk := b.desk.update index (·.setSpeed speed) }, .nothing)
  | .replace old text speed scale => ({ b with desk := b.desk.replace old text speed scale }, .nothing)
  | .advance ms => ended (b.agenda.advance Desk.react b.budget ms b.desk)
  | .runPending limit => ended (b.agenda.runPending Desk.react limit b.desk)
  | .view change => ({ b with desk := { b.desk with surface := b.desk.surface.view change } }, .nothing)

/-- Why an event breaks off before it is done, and the desk that it leaves. A speed has to be within the range of floats, and
the origin cannot be put at the center of a surface that has none. An old session is stopped before anything is looked at. -/
def refusal? (b : Bench) : Event → Option (Desk × ArithmeticError)
  | .setSpeed index (some speed) =>
    if b.desk.sessions[index]?.isSome && !speed.fits then some (b.desk, .tooLarge) else none
  | .replace old _ speed _ =>
    if speed.any (!·.fits) then some (b.desk.stop old, .tooLarge)
    else if b.desk.surface.hasCenter then none
    else some ({ b.desk.stop old with surface := b.desk.surface.wipe }, .quotientTooLarge)
  | .reset index =>
    if b.desk.sessions[index]?.isNone || b.desk.surface.hasCenter then none
    else some ({ b.desk.update index Playback.abandon with surface := b.desk.surface.wipe }, .quotientTooLarge)
  | .view (.resize width height) =>
    let sized := b.desk.surface.setSize width height
    if sized.hasCenter then none else some ({ b.desk with surface := sized }, .quotientTooLarge)
  | .view .center => if b.desk.surface.hasCenter then none else some (b.desk, .quotientTooLarge)
  | _ => none

/-- Let an event happen, or break off. -/
def attempt (b : Bench) (e : Event) : Bench × Reply :=
  match b.refusal? e with
  | some (desk, reason) => ({ b with desk }, .failed reason)
  | none => b.perform e

end Bench

end WireCut
