import WireCut.Playback.Bench
import WireCut.Proofs.Agenda.Drain
import WireCut.Proofs.Playback.Act

/-! Events of a bench as acts of its sessions. Whatever happens at a bench, also inside a run of the clock, is
an act of one session, a change of the view, or the opening of a session. -/
namespace WireCut

def Event.opens : Event → Bool
  | .replace .. => true
  | _ => false

def Event.resets : Event → Bool
  | .reset _ => true
  | _ => false

def Event.isClock : Event → Bool
  | .advance _ | .runPending _ => true
  | _ => false

theorem Surface.strokes_view (s : Surface) (change : ViewChange) : (s.view change).strokes = s.strokes := by
  cases change <;> rfl

def Playback.fresh (setup : Setup) (text : String) (speed : Option Quantity) (scale : Float) : Playback :=
  { setup, program := (Program.commands text).toArray, machine := .powerOn scale, speed := setup.accepted speed,
    mode := .idle, marked := none, generation := 1, log := some (Program.warnings text).reverse }

theorem Session.create_eq (setup : Setup) (text : String) (speed : Option Quantity) (scale : Float) (s : Surface) :
    Session.create setup text speed scale s =
      ⟨⟨text, .fresh setup text speed scale⟩,
        (Pen.mk scale setup.widthFactor).prepare ((Pen.mk scale setup.widthFactor).prepare s),
        if setup.followed then [.unmarkAll] else []⟩ := by
  unfold Session.create Playback.reset Playback.load
  rw [Playback.setSpeed_eq]
  rfl

namespace Desk

def perform (desk : Desk) (index : Nat) (session : Session) (a : Playback.Act) : Desk :=
  desk.settle index session (session.playback.act desk.surface a)

theorem sessions_perform (desk : Desk) (index : Nat) (session : Session) (a : Playback.Act) :
    (desk.perform index session a).sessions =
      desk.sessions.set index { session with playback := (session.playback.act desk.surface a).playback } := rfl

theorem getElem?_perform {desk : Desk} {index : Nat} {session : Session}
    (found : desk.sessions[index]? = some session) (a : Playback.Act) (i : Nat) :
    (desk.perform index session a).sessions[i]? =
      if index = i then some { session with playback := (session.playback.act desk.surface a).playback }
      else desk.sessions[i]? := by
  rw [sessions_perform, List.getElem?_set]
  by_cases hi : index = i
  · subst hi
    rw [if_pos rfl, if_pos (List.getElem?_eq_some_iff.mp found).1, if_pos rfl]
  · rw [if_neg hi, if_neg hi]

theorem settle_self {desk : Desk} {index : Nat} {session : Session} (h : desk.sessions[index]? = some session) :
    desk.settle index session ⟨session.playback, desk.surface, []⟩ = desk := by
  have hsame : desk.sessions.set index session = desk.sessions := by
    obtain ⟨hi, rfl⟩ := List.getElem?_eq_some_iff.mp h
    exact List.set_getElem_self hi
  simp only [settle, List.reverse_nil, List.nil_append]
  rw [hsame]

theorem update_eq_settle {desk : Desk} {index : Nat} {session : Session} (change : Playback → Playback)
    (h : desk.sessions[index]? = some session) :
    desk.update index change = desk.settle index session ⟨change session.playback, desk.surface, []⟩ := by
  simp only [update, settle, List.reverse_nil, List.nil_append, Desk.mk.injEq, true_and, and_true]
  apply List.ext_getElem?
  intro i
  rw [List.getElem?_modify, List.getElem?_set]
  by_cases hi : index = i
  · subst hi
    rw [h, if_pos rfl, if_pos (List.getElem?_eq_some_iff.mp h).1]
    simp
  · simp [hi]

theorem update_of_none {desk : Desk} {index : Nat} (change : Playback → Playback)
    (h : desk.sessions[index]? = none) : desk.update index change = desk := by
  have hsame : desk.sessions.modify index (fun s => { s with playback := change s.playback }) = desk.sessions := by
    apply List.ext_getElem?
    intro i
    rw [List.getElem?_modify]
    by_cases hi : index = i
    · subst hi
      simp [h]
    · simp [hi]
  simp only [update, hsame]

theorem react_of_not_awaits {desk : Desk} {wakeUp : WakeUp} (now : Int)
    (h : ∀ session, desk.sessions[wakeUp.session]? = some session →
      session.playback.awaits wakeUp.generation = false) :
    desk.react now wakeUp = ⟨desk, [], none⟩ := by
  unfold react
  cases hs : desk.sessions[wakeUp.session]? with
  | none => rfl
  | some session =>
    simp only [Playback.wake_of_not_awaits _ _ _ (h session hs), settle_self hs]

/-- A wake-up that its session awaits is a step of that session. It is scheduled again for as long as the
session runs, unless the interval does not exist. -/
theorem react_of_awaits {desk : Desk} {session : Session} {wakeUp : WakeUp} (now : Int)
    (hs : desk.sessions[wakeUp.session]? = some session)
    (h : session.playback.awaits wakeUp.generation = true) :
    (desk.react now wakeUp).world = desk.perform wakeUp.session session .step ∧
      ∀ p, p = (session.playback.act desk.surface .step).playback →
        (p.mode ≠ .running → (desk.react now wakeUp).posts = [] ∧ (desk.react now wakeUp).failure = none) ∧
        (p.mode = .running → ∀ delay, p.interval = .ok delay →
          (desk.react now wakeUp).posts = [(delay, wakeUp)] ∧ (desk.react now wakeUp).failure = none) := by
  have hw := Playback.wake_of_awaits session.playback desk.surface wakeUp.generation h
  unfold react
  simp only [hs, hw]
  refine ⟨?_, ?_⟩
  · split <;> rfl
  · rintro p rfl
    constructor
    · intro hm
      rw [Playback.act] at hm
      simp [hm]
    · intro hm delay hd
      rw [Playback.act] at hm hd
      simp [hm, hd, Except.map]

/-- A wake-up is nothing, or a step of a session that awaits it. -/
theorem react_world (desk : Desk) (now : Int) (wakeUp : WakeUp) :
    (desk.react now wakeUp).world = desk ∨ ∃ session, desk.sessions[wakeUp.session]? = some session ∧
      session.playback.awaits wakeUp.generation = true ∧
      (desk.react now wakeUp).world = desk.perform wakeUp.session session .step := by
  cases hs : desk.sessions[wakeUp.session]? with
  | none => exact .inl (by rw [react_of_not_awaits now (by simp [hs])])
  | some session =>
    cases ha : session.playback.awaits wakeUp.generation with
    | true => exact .inr ⟨session, rfl, ha, (react_of_awaits now hs ha).1⟩
    | false =>
      refine .inl ?_
      rw [react_of_not_awaits now]
      intro other ho
      rw [hs] at ho
      cases ho
      exact ha

end Desk

namespace Bench

def after (b : Bench) (events : List Event) : Bench :=
  events.foldl (fun b e => (b.perform e).1) b

@[simp] theorem after_nil (b : Bench) : b.after [] = b := rfl

@[simp] theorem after_cons (b : Bench) (e : Event) (events : List Event) :
    b.after (e :: events) = (b.perform e).1.after events := rfl

theorem after_append (b : Bench) (first second : List Event) :
    b.after (first ++ second) = (b.after first).after second := by
  simp [after, List.foldl_append]

/-- What every event keeps holds after any list of events. -/
theorem invariant_after {P : Bench → Prop} (step : ∀ b e, P b → P (b.perform e).1) {b : Bench} (h : P b)
    (events : List Event) : P (b.after events) := by
  induction events generalizing b with
  | nil => exact h
  | cons e events ih => exact ih (step b e h)

@[simp] theorem perform_runPending (b : Bench) (limit : Nat) :
    (b.perform (.runPending limit)).1 =
      ⟨(b.agenda.runPending Desk.react limit b.desk).world,
        (b.agenda.runPending Desk.react limit b.desk).agenda⟩ := rfl

/-- The entries of the agenda after an event that is neither a run nor a move of the clock are those from
before, and a run adds the wake-up of its own generation. -/
inductive Immediate (b : Bench) : Event → Bench → Prop where
  | nothing (e : Event) : Immediate b e b
  | act (e : Event) (index : Nat) (session : Session) (a : Playback.Act)
      (found : b.desk.sessions[index]? = some session)
      (still : a = .run → session.playback.run.2 = false) (resets : a = .reset → e.resets = true) :
      Immediate b e ⟨b.desk.perform index session a, b.agenda⟩
  | begin (index : Nat) (session : Session) (found : b.desk.sessions[index]? = some session)
      (begins : session.playback.run.2 = true) :
      Immediate b (.run index) ⟨b.desk.perform index session .run,
        b.agenda.schedule 0 ⟨index, session.playback.run.1.generation⟩⟩
  | replace (old : Option Nat) (text : String) (speed : Option Quantity) (scale : Float) :
      Immediate b (.replace old text speed scale) ⟨b.desk.replace old text speed scale, b.agenda⟩
  | view (change : ViewChange) :
      Immediate b (.view change) ⟨{ b.desk with surface := b.desk.surface.view change }, b.agenda⟩

/-- An event that does not move the clock is nothing, one act, one opening, or one change of the view. -/
private theorem immediate_perform (b : Bench) (e : Event) (h : e.isClock = false) : b.Immediate e (b.perform e).1 := by
  have update (index : Nat) (a : Playback.Act) (change : Playback → Playback)
      (ha : ∀ p s, Playback.act p s a = ⟨change p, s, []⟩) (hrun : a ≠ .run) (hreset : a ≠ .reset) :
      b.Immediate e { b with desk := b.desk.update index change } := by
    cases hs : b.desk.sessions[index]? with
    | none =>
      rw [Desk.update_of_none change hs]
      exact .nothing e
    | some session =>
      have heq : b.desk.update index change = b.desk.perform index session a := by
        rw [Desk.update_eq_settle change hs, Desk.perform, ha]
      rw [heq]
      exact .act e index session a hs (fun h => absurd h hrun) fun h => absurd h hreset
  cases e with
  | step index =>
    cases hs : b.desk.sessions[index]? with
    | none => simpa only [perform, hs] using Immediate.nothing _
    | some session =>
      simp only [perform, hs]
      exact .act _ index session .step hs nofun nofun
  | run index =>
    cases hs : b.desk.sessions[index]? with
    | none => simpa only [perform, hs] using Immediate.nothing _
    | some session =>
      simp only [perform, hs, Desk.update_eq_settle _ hs]
      cases hw : session.playback.run.2 with
      | true => exact .begin index session hs hw
      | false => exact .act _ index session .run hs (fun _ => hw) nofun
  | pause index => exact update index .pause _ (fun _ _ => rfl) nofun nofun
  | reset index =>
    cases hs : b.desk.sessions[index]? with
    | none => simpa only [perform, hs] using Immediate.nothing _
    | some session =>
      simp only [perform, hs]
      exact .act _ index session .reset hs nofun fun _ => rfl
  | setSpeed index speed => exact update index (.setSpeed speed) _ (fun _ _ => rfl) nofun nofun
  | replace old text speed scale => exact .replace old text speed scale
  | view change => exact .view change
  | advance ms => cases h
  | runPending limit => cases h

/-- An invariant of the agenda and the desk that fired wake-ups keep, and that does not depend on the clock alone,
holds after an event if it holds whatever the event does without moving the clock. -/
theorem invariant_perform {P : Agenda WakeUp → Desk → Prop}
    (fire : ∀ agenda desk x rest, agenda.entries = x :: rest → P agenda desk →
      P ((agenda.taken x.due rest).scheduleAll (desk.react x.due x.task).posts) (desk.react x.due x.task).world)
    (clock : ∀ agenda desk now, P agenda desk → P { agenda with now } desk) (b : Bench) (e : Event)
    (immediate : ∀ next, b.Immediate e next → P next.agenda next.desk) (h : P b.agenda b.desk) :
    P (b.perform e).1.agenda (b.perform e).1.desk := by
  cases hc : e.isClock with
  | true =>
    cases e with
    | advance ms => exact Agenda.advance_keeps fire clock b.budget ms b.agenda b.desk h
    | runPending limit => exact Agenda.runPending_keeps fire limit b.agenda b.desk h
    | _ => cases hc
  | false => exact immediate (b.perform e).1 (b.immediate_perform e hc)

/-- An invariant of the desk under steps of sessions that are woken holds however the clock is moved. -/
theorem desk_clock {P : Desk → Prop}
    (step : ∀ desk index session generation, desk.sessions[index]? = some session →
      session.playback.awaits generation = true → P desk → P (desk.perform index session .step))
    (b : Bench) (e : Event) (h : e.isClock = true) (hb : P b.desk) : P (b.perform e).1.desk := by
  have wake (agenda : Agenda WakeUp) (desk : Desk) (x : Entry WakeUp) (rest : List (Entry WakeUp))
      (_ : agenda.entries = x :: rest) (hd : P desk) : P (desk.react x.due x.task).world := by
    obtain heq | ⟨session, hs, ha, heq⟩ := desk.react_world x.due x.task
    · rw [heq]
      exact hd
    · rw [heq]
      exact step desk x.task.session session x.task.generation hs ha hd
  cases e with
  | advance ms =>
    exact Agenda.advance_keeps (P := fun _ desk => P desk) wake (fun _ _ _ h => h) b.budget ms b.agenda b.desk hb
  | runPending limit =>
    exact Agenda.runPending_keeps (P := fun _ desk => P desk) wake limit b.agenda b.desk hb
  | _ => cases h

/-- An invariant of the desk under acts, changes of the view and openings of sessions holds after every event. It
need not survive a reset if the event is none. -/
theorem desk_perform {P : Desk → Prop} (b : Bench) (e : Event)
    (act : ∀ desk index session a, (a = .reset → e.resets = true) → desk.sessions[index]? = some session →
      P desk → P (desk.perform index session a))
    (view : ∀ desk change, P desk → P { desk with surface := desk.surface.view change })
    (replace : ∀ old text speed scale, e = .replace old text speed scale → P b.desk →
      P (b.desk.replace old text speed scale))
    (hb : P b.desk) : P (b.perform e).1.desk := by
  cases hc : e.isClock with
  | true => exact desk_clock (fun desk index session _ hs _ hd => act desk index session .step nofun hs hd) b e hc hb
  | false =>
    have himm := b.immediate_perform e hc
    generalize (b.perform e).1 = next at himm ⊢
    cases himm with
    | nothing => exact hb
    | act _ index session a found _ resets => exact act _ index session a resets found hb
    | begin index session found => exact act _ index session .run nofun found hb
    | replace old text speed scale => exact replace old text speed scale rfl hb
    | view change => exact view _ change hb

theorem playback_unique {b : Bench} {text : String} {p q : Playback} (hp : b.desk.sessions = [⟨text, p⟩])
    (hq : b.desk.sessions = [⟨text, q⟩]) : p = q := by
  rw [hp] at hq
  cases hq
  rfl

/-- Single steps open no session and send none back to its start. -/
theorem quiet_steps (n : Nat) : ∀ e ∈ List.replicate n (Event.step 0), e.opens = false ∧ e.resets = false := by
  intro e he
  rw [List.eq_of_mem_replicate he]
  exact ⟨rfl, rfl⟩

/-- A step of the only session of a bench. -/
theorem step_alone {b : Bench} {text : String} {p : Playback} (h : b.desk.sessions = [⟨text, p⟩]) :
    (b.perform (.step 0)).2 = .executed (p.step b.desk.surface).2 ∧
      (b.perform (.step 0)).1.desk.sessions = [⟨text, (p.step b.desk.surface).1.playback⟩] := by
  simp [perform, h, Desk.settle]

/-- An invariant of one act of the only session of a bench, together with its surface and its marks, holds
after every list of events that opens no other session. It need not survive a reset if there is none. -/
theorem alone_after {P : Playback → Surface → List MarkChange → Prop} {R : Prop}
    (act : ∀ p s marks a, (a = .reset → R) → P p s marks →
      P (p.act s a).playback (p.act s a).surface ((p.act s a).marks.reverse ++ marks))
    (view : ∀ p s marks change, P p s marks → P p (s.view change) marks)
    (b : Bench) (session : Session) (hb : b.desk.sessions = [session])
    (h : P session.playback b.desk.surface b.desk.marks) (events : List Event)
    (alone : ∀ e ∈ events, e.opens = false) (resets : ∀ e ∈ events, e.resets = true → R) :
    ∃ p, (b.after events).desk.sessions = [{ session with playback := p }] ∧
      P p (b.after events).desk.surface (b.after events).desk.marks := by
  let Q (desk : Desk) : Prop := ∃ p, desk.sessions = [{ session with playback := p }] ∧ P p desk.surface desk.marks
  have hact (desk : Desk) (index : Nat) (other : Session) (a : Playback.Act) (ha : a = .reset → R)
      (hs : desk.sessions[index]? = some other) (hd : Q desk) : Q (desk.perform index other a) := by
    obtain ⟨p, hp, hP⟩ := hd
    rw [hp] at hs
    obtain ⟨rfl, rfl⟩ : index = 0 ∧ other = { session with playback := p } := by
      cases index with
      | zero => exact ⟨rfl, (Option.some.inj hs).symm⟩
      | succ index => simp at hs
    refine ⟨(p.act desk.surface a).playback, ?_, act p desk.surface desk.marks a ha hP⟩
    simp [Desk.perform, Desk.settle, hp]
  have hview (desk : Desk) (change : ViewChange) (hd : Q desk) :
      Q { desk with surface := desk.surface.view change } := by
    obtain ⟨p, hp, hP⟩ := hd
    exact ⟨p, hp, view p desk.surface desk.marks change hP⟩
  have hstart : Q b.desk := ⟨session.playback, hb, h⟩
  clear hb h
  induction events generalizing b with
  | nil => exact hstart
  | cons e events ih =>
    have hnone (old : Option Nat) (text : String) (speed : Option Quantity) (scale : Float)
        (he : e = .replace old text speed scale) (_ : Q b.desk) : Q (b.desk.replace old text speed scale) := by
      have hopens := alone e List.mem_cons_self
      rw [he] at hopens
      cases hopens
    have hnext : Q (b.perform e).1.desk :=
      desk_perform b e (fun desk index other a ha => hact desk index other a
        fun h => resets e List.mem_cons_self (ha h)) hview hnone hstart
    exact ih (b.perform e).1 (fun x hx => alone x (List.mem_cons_of_mem e hx))
      (fun x hx => resets x (List.mem_cons_of_mem e hx)) hnext

end Bench

end WireCut
