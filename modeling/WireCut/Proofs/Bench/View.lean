import WireCut.Proofs.Bench.Apart
import WireCut.Proofs.Bench.Sound

/-! Views. A change of the size or the transform of a surface changes nothing else: the sessions, the strokes, the editor
and the agenda go on as if it had not been made. And whatever the transform has become, a reset and a change of the size
put the origin at the center again. -/
namespace WireCut

def Event.isView : Event → Bool
  | .view _ => true
  | _ => false

def Transform.upright (width height : Quantity) : Transform :=
  (identity.translate width.nearestHalf height.nearestHalf).scale 1 (-1)

namespace Surface

structure SameDrawing (s t : Surface) : Prop where
  drawn_eq : s.drawn = t.drawn
  lineWidth_eq : s.lineWidth = t.lineWidth

namespace SameDrawing
variable {s t : Surface}

private theorem of_view (h : s.SameDrawing t) (change : ViewChange) : (s.view change).SameDrawing t := by
  cases change <;> exact ⟨h.drawn_eq, h.lineWidth_eq⟩

private theorem draw (h : s.SameDrawing t) (line : Int) (shape : Shape) : (s.draw line shape).SameDrawing (t.draw line shape) := by
  refine ⟨?_, h.lineWidth_eq⟩
  rw [Surface.draw, Surface.draw, strokeOf, strokeOf, h.drawn_eq, h.lineWidth_eq]

private theorem render (h : s.SameDrawing t) (request : Option Request) : (s.render request).SameDrawing (t.render request) := by
  unfold Surface.render
  split
  · exact h
  · split
    · exact h
    · exact h.draw _ _

/-- A surface that is prepared for a new drawing keeps nothing of an old one. -/
private theorem prepare (pen : Pen) (s t : Surface) : (pen.prepare s).SameDrawing (pen.prepare t) := by
  have hdrawn (s : Surface) : (pen.prepare s).drawn = [] := rfl
  have hwidth (s : Surface) : (pen.prepare s).lineWidth = pen.width := rfl
  exact ⟨(hdrawn s).trans (hdrawn t).symm, (hwidth s).trans (hwidth t).symm⟩

private theorem strokes_eq (h : s.SameDrawing t) : s.strokes = t.strokes := by
  rw [strokes, strokes, h.drawn_eq]

private theorem statistics_eq (h : s.SameDrawing t) : s.statistics = t.statistics := by
  rw [statistics, statistics, h.strokes_eq]

private theorem bounds_eq (h : s.SameDrawing t) : s.bounds = t.bounds := by
  rw [bounds, bounds, h.strokes_eq]

end SameDrawing

def Upright (s : Surface) : Prop :=
  s.transform = .upright s.width s.height

private theorem upright_center {s : Surface} (h : s.transform = .identity) : s.center.Upright := by
  rw [Upright, center, setTransform, h]
  rfl

private theorem upright_resize (s : Surface) (width height : Quantity) : (s.resize width height).Upright :=
  upright_center rfl

private theorem upright_prepare (s : Surface) (pen : Pen) : (pen.prepare s).Upright := by
  have h : s.wipe.center.Upright := upright_center rfl
  exact h

private theorem Upright.render {s : Surface} (h : s.Upright) (request : Option Request) : (s.render request).Upright := by
  unfold Surface.render
  split
  · exact h
  · split
    · exact h
    · exact h

private theorem Upright.act {s : Surface} (h : s.Upright) (p : Playback) (a : Playback.Act) : (p.act s a).surface.Upright := by
  obtain ⟨c, -, heq⟩ | ⟨-, heq⟩ | ⟨_, _, _, -, heq⟩ := p.act_cases s a
  · rw [heq, Playback.executeCommand_eq]
    exact h.render _
  · rw [heq]
    exact upright_prepare s p.pen
  · rw [heq]
    exact h

end Surface

structure Played.SameDrawing (played other : Played) : Prop where
  playback_eq : played.playback = other.playback
  surfaces : played.surface.SameDrawing other.surface
  marks_eq : played.marks = other.marks

namespace Playback
variable {s t : Surface}

private theorem sameDrawing_act (p : Playback) (h : s.SameDrawing t) (a : Act) : (p.act s a).SameDrawing (p.act t a) := by
  cases a with
  | step =>
    rw [act, act, step, step]
    split
    · exact ⟨rfl, h, rfl⟩
    · split
      · exact ⟨rfl, h, rfl⟩
      · exact ⟨rfl, h.render _, rfl⟩
  | reset => exact ⟨rfl, .prepare p.pen s t, rfl⟩
  | _ => exact ⟨rfl, h, rfl⟩

private theorem sameDrawing_wake (p : Playback) (h : s.SameDrawing t) (generation : Nat) :
    (p.wake s generation).played.SameDrawing (p.wake t generation).played ∧
      (p.wake s generation).delay = (p.wake t generation).delay := by
  have hstep : (p.step s).1.SameDrawing (p.step t).1 := p.sameDrawing_act h .step
  unfold wake
  split
  · refine ⟨hstep, ?_⟩
    dsimp only
    rw [hstep.playback_eq]
  · exact ⟨⟨rfl, h, rfl⟩, rfl⟩

end Playback

namespace Desk

structure SameDrawing (desk other : Desk) : Prop where
  setup_eq : desk.setup = other.setup
  surfaces : desk.surface.SameDrawing other.surface
  sessions_eq : desk.sessions = other.sessions
  marks_eq : desk.marks = other.marks

namespace SameDrawing
variable {desk other : Desk}

private theorem settle (h : desk.SameDrawing other) (index : Nat) (session : Session) {played played' : Played}
    (hplayed : played.SameDrawing played') :
    (desk.settle index session played).SameDrawing (other.settle index session played') := by
  refine ⟨h.setup_eq, hplayed.surfaces, ?_, ?_⟩
  · rw [Desk.settle, Desk.settle, h.sessions_eq, hplayed.playback_eq]
  · rw [Desk.settle, Desk.settle, h.marks_eq, hplayed.marks_eq]

private theorem update (h : desk.SameDrawing other) (index : Nat) (change : Playback → Playback) :
    (desk.update index change).SameDrawing (other.update index change) := by
  refine ⟨h.setup_eq, h.surfaces, ?_, h.marks_eq⟩
  rw [Desk.update, Desk.update, h.sessions_eq]

private theorem opened (h : desk.SameDrawing other) (text : String) (speed : Option Quantity) (scale : Float) (s t : Surface) :
    (desk.opened (Session.create desk.setup text speed scale s)).SameDrawing
      (other.opened (Session.create other.setup text speed scale t)) := by
  rw [Session.create_eq, Session.create_eq, h.setup_eq]
  refine ⟨h.setup_eq, .prepare _ _ _, ?_, ?_⟩
  · rw [Desk.opened, Desk.opened, h.sessions_eq]
  · rw [Desk.opened, Desk.opened, h.marks_eq]

private theorem replace (h : desk.SameDrawing other) (old : Option Nat) (text : String) (speed : Option Quantity) (scale : Float) :
    (desk.replace old text speed scale).SameDrawing (other.replace old text speed scale) := by
  cases old with
  | none => exact h.opened text speed scale desk.surface other.surface
  | some index => exact (h.update index Playback.pause).opened text speed scale desk.surface other.surface

/-- A wake-up does the same in any view, and the next one is scheduled for the same time. -/
private theorem react (h : desk.SameDrawing other) (now : Int) (wakeUp : WakeUp) :
    (desk.react now wakeUp).Lockstep SameDrawing (other.react now wakeUp) := by
  unfold Desk.react
  rw [h.sessions_eq]
  cases other.sessions[wakeUp.session]? with
  | none => exact ⟨h, rfl, rfl⟩
  | some session =>
    obtain ⟨hplayed, hdelay⟩ := session.playback.sameDrawing_wake h.surfaces wakeUp.generation
    have hnext := h.settle wakeUp.session session hplayed
    dsimp only
    rw [hdelay]
    split <;> exact ⟨hnext, rfl, rfl⟩

end SameDrawing

end Desk

private theorem Run.Lockstep.reply_eq {W : Desk → Desk → Prop} {run other : Run Desk WakeUp ArithmeticError}
    (h : run.Lockstep W other) : run.reply = other.reply := by
  rw [Run.reply, Run.reply, h.calls_eq, h.failure_eq]

namespace Bench

/-- Two benches that differ at most in the view. -/
structure SameDrawing (b plain : Bench) : Prop where
  desks : b.desk.SameDrawing plain.desk
  agenda_eq : b.agenda = plain.agenda

namespace SameDrawing
variable {b plain : Bench}

private theorem budget_eq (h : b.SameDrawing plain) : b.budget = plain.budget := by
  rw [budget, budget, h.agenda_eq, Desk.remaining, Desk.remaining, h.desks.sessions_eq]

private theorem view (h : b.SameDrawing plain) (change : ViewChange) : (b.perform (.view change)).1.SameDrawing plain :=
  ⟨⟨h.desks.setup_eq, h.desks.surfaces.of_view change, h.desks.sessions_eq, h.desks.marks_eq⟩, h.agenda_eq⟩

/-- An event does the same in any view, and it is answered alike. -/
private theorem event (h : b.SameDrawing plain) {e : Event} (core : e.isView = false) :
    (b.perform e).1.SameDrawing (plain.perform e).1 ∧ (b.perform e).2 = (plain.perform e).2 := by
  have hdesks := h.desks
  cases e with
  | step index =>
    simp only [perform, hdesks.sessions_eq]
    cases plain.desk.sessions[index]? with
    | none => exact ⟨h, rfl⟩
    | some session =>
      refine ⟨⟨hdesks.settle index session (session.playback.sameDrawing_act hdesks.surfaces .step), h.agenda_eq⟩, ?_⟩
      exact congrArg Reply.executed (session.playback.step_apart b.desk.surface plain.desk.surface)
  | run index =>
    simp only [perform, hdesks.sessions_eq, h.agenda_eq]
    cases plain.desk.sessions[index]? with
    | none => exact ⟨⟨hdesks, h.agenda_eq⟩, rfl⟩
    | some session => exact ⟨⟨hdesks.update index fun _ => session.playback.run.1, rfl⟩, rfl⟩
  | pause index => exact ⟨⟨hdesks.update index Playback.pause, h.agenda_eq⟩, rfl⟩
  | reset index =>
    simp only [perform, hdesks.sessions_eq]
    cases plain.desk.sessions[index]? with
    | none => exact ⟨h, rfl⟩
    | some session =>
      exact ⟨⟨hdesks.settle index session (session.playback.sameDrawing_act hdesks.surfaces .reset), h.agenda_eq⟩, rfl⟩
  | setSpeed index speed => exact ⟨⟨hdesks.update index (·.setSpeed speed), h.agenda_eq⟩, rfl⟩
  | replace old text speed scale => exact ⟨⟨hdesks.replace old text speed scale, h.agenda_eq⟩, rfl⟩
  | advance ms =>
    have hrun : (b.agenda.advance Desk.react b.budget ms b.desk).Lockstep Desk.SameDrawing
        (plain.agenda.advance Desk.react plain.budget ms plain.desk) := by
      rw [h.agenda_eq, h.budget_eq]
      exact Run.Lockstep.advance (fun _ _ h => h.react) _ ms _ hdesks
    rw [reply_advance, reply_advance]
    exact ⟨⟨hrun.worlds, hrun.agenda_eq⟩, hrun.reply_eq⟩
  | runPending limit =>
    have hrun : (b.agenda.runPending Desk.react limit b.desk).Lockstep Desk.SameDrawing
        (plain.agenda.runPending Desk.react limit plain.desk) := by
      rw [h.agenda_eq]
      exact Run.Lockstep.runPending (fun _ _ h => h.react) limit _ hdesks
    rw [reply_runPending, reply_runPending]
    exact ⟨⟨hrun.worlds, hrun.agenda_eq⟩, hrun.reply_eq⟩
  | view change => cases core

/-- Changes of the view can be left out of a list of events. -/
private theorem after (h : b.SameDrawing plain) (events : List Event) :
    (b.after events).SameDrawing (plain.after (events.filter fun e => !e.isView)) := by
  induction events generalizing b plain with
  | nil => exact h
  | cons e events ih =>
    rw [after_cons]
    cases hview : e.isView with
    | true =>
      rw [List.filter_cons_of_neg (by simp [hview])]
      cases e with
      | view change => exact ih (h.view change)
      | _ => cases hview
    | false =>
      rw [List.filter_cons_of_pos (by simp [hview])]
      exact ih (h.event hview).1

end SameDrawing

/-- Once the origin is at the center, only a change of the view can move it. -/
private theorem upright_perform {b : Bench} (h : b.desk.surface.Upright) {e : Event} (core : e.isView = false) :
    (b.perform e).1.desk.surface.Upright := by
  refine invariant_perform (P := fun _ desk => desk.surface.Upright) ?_ (fun _ _ _ hd => hd) b e ?_ h
  · intro agenda desk x rest _ hd
    obtain heq | ⟨session, -, -, heq⟩ := desk.react_world x.due x.task
    · rw [heq]
      exact hd
    · rw [heq]
      exact hd.act session.playback .step
  · intro next himm
    cases himm with
    | nothing => exact h
    | act _ index session a => exact h.act session.playback a
    | begin index session => exact h.act session.playback .run
    | replace old text speed scale =>
      change (b.desk.replace old text speed scale).surface.Upright
      rw [Desk.replace_eq, Session.create_eq]
      exact Surface.upright_prepare _ _
    | view change => cases core

private theorem upright_after {b : Bench} (h : b.desk.surface.Upright) {events : List Event}
    (core : ∀ e ∈ events, e.isView = false) : (b.after events).desk.surface.Upright := by
  induction events generalizing b with
  | nil => exact h
  | cons e events ih =>
    exact ih (upright_perform h (core e List.mem_cons_self)) fun x hx => core x (List.mem_cons_of_mem e hx)

private theorem upright_reset {b : Bench} {index : Nat} (present : index < b.desk.sessions.length) :
    (b.perform (.reset index)).1.desk.surface.Upright := by
  have found : b.desk.sessions[index]? = some b.desk.sessions[index] :=
    List.getElem?_eq_getElem present
  rw [show Event.reset index = Playback.Act.event index .reset from rfl, perform_act found]
  exact Surface.upright_prepare _ _

/-- The view never reaches the core. Leave out all changes of the view from a list of events, and start on any other
surface: there are the same sessions in the same state, the same strokes and counts, the same marks and the same agenda,
and every event is answered alike. And the view is forgotten in turn: after a reset, and after a change of the size, the
transform is the upright one of the size, and it stays so until the view is changed again. -/
theorem core_ignores_view (setup : Setup) (surface other : Surface) (text : String) (speed : Option Quantity)
    (scale : Float) (events : List Event) :
    let b := (start setup surface text speed scale).after events
    let plain := (start setup other text speed scale).after (events.filter fun e => !e.isView)
    b.desk.sessions = plain.desk.sessions ∧ b.desk.marks = plain.desk.marks ∧ b.agenda = plain.agenda ∧
      b.desk.surface.strokes = plain.desk.surface.strokes ∧ b.desk.surface.lineWidth = plain.desk.surface.lineWidth ∧
      b.desk.surface.statistics = plain.desk.surface.statistics ∧
      b.desk.surface.bounds = plain.desk.surface.bounds ∧
      (∀ e, e.isView = false → (b.perform e).2 = (plain.perform e).2) ∧
      ∀ later : List Event, (∀ e ∈ later, e.isView = false) →
        (∀ index < b.desk.sessions.length,
          let shown := ((b.perform (.reset index)).1.after later).desk.surface
          shown.size = b.desk.surface.size ∧ shown.transform = .upright shown.width shown.height) ∧
        ∀ width height,
          let shown := ((b.perform (.view (.resize width height))).1.after later).desk.surface
          shown.size = (width, height) ∧ shown.transform = .upright width height := by
  intro b plain
  have hstart : SameDrawing (start setup surface text speed scale) (start setup other text speed scale) := by
    refine ⟨?_, rfl⟩
    have hempty : Desk.SameDrawing ⟨setup, surface, [], []⟩ ⟨setup, surface, [], []⟩ := ⟨rfl, ⟨rfl, rfl⟩, rfl, rfl⟩
    exact hempty.opened text speed scale surface other
  obtain ⟨hdesks, hagenda⟩ : b.SameDrawing plain := hstart.after events
  refine ⟨hdesks.sessions_eq, hdesks.marks_eq, hagenda, hdesks.surfaces.strokes_eq, hdesks.surfaces.lineWidth_eq,
    hdesks.surfaces.statistics_eq, hdesks.surfaces.bounds_eq,
    fun e core => (SameDrawing.event ⟨hdesks, hagenda⟩ core).2, ?_⟩
  intro later core
  have hsize (e : Event) (he : e ∈ later) : e.resizes = false := by
    have hcore := core e he
    cases e with
    | view change => cases hcore
    | _ => rfl
  refine ⟨fun index hindex => ⟨?_, upright_after (upright_reset hindex) core⟩, fun width height => ?_⟩
  · exact (size_after _ hsize).trans (size_perform b rfl)
  · have hshown : ((b.perform (.view (.resize width height))).1.after later).desk.surface.Upright :=
      upright_after (b.desk.surface.upright_resize width height) core
    have hsame := size_after (b.perform (.view (.resize width height))).1 hsize
    refine ⟨hsame, ?_⟩
    generalize ((b.perform (.view (.resize width height))).1.after later).desk.surface = shown at hshown hsame ⊢
    obtain ⟨rfl, rfl⟩ : shown.width = width ∧ shown.height = height := Prod.ext_iff.mp hsame
    exact hshown

end Bench

end WireCut
