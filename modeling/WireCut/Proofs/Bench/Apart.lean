import WireCut.Proofs.Bench.Each
import WireCut.Proofs.Bench.Replace

/-! Sessions apart. However the acts of any number of sessions are mixed, also inside a run of the clock, each session
goes on as it does alone: with an agenda, a surface and an editor of its own, and only its own acts. -/
namespace WireCut

/-- What a playback becomes by an act does not depend on the surface. -/
private theorem Playback.act_apart (p : Playback) (s s' : Surface) (a : Playback.Act) :
    (p.act s a).playback = (p.act s' a).playback := by
  cases a with
  | step =>
    rw [act, act, step, step]
    split
    · rfl
    · split <;> rfl
  | _ => rfl

/-- Neither does the answer of a step. -/
theorem Playback.step_apart (p : Playback) (s s' : Surface) : (p.step s).2 = (p.step s').2 := by
  rw [step, step]
  split
  · rfl
  · split <;> rfl

def Event.actor : Event → Option (Nat × Playback.Act)
  | .step index => some (index, .step)
  | .run index => some (index, .run)
  | .pause index => some (index, .pause)
  | .reset index => some (index, .reset)
  | .setSpeed index speed => some (index, .setSpeed speed)
  | .replace old .. => old.map (·, .pause)
  | _ => none

/-- What an event is to the session at a place, if that session is alone: its own acts and the time that passes. -/
def Event.partOf (index : Nat) : Event → Option Event
  | .advance ms => some (.advance ms)
  | e => e.actor.bind fun (session, a) => if session = index then some (a.event 0) else none

/-- A session that always has an interval: its speed is one that it has accepted, and not below one. -/
def Session.Steady (session : Session) : Prop :=
  session.playback.setup.minimumSpeed = .whole 1 ∧ session.playback.Paced

private theorem Session.Steady.act {session : Session} (h : session.Steady) (s : Surface) (a : Playback.Act) :
    Session.Steady { session with playback := (session.playback.act s a).playback } := by
  refine ⟨?_, h.2.act s a⟩
  rw [session.playback.act_setup s a]
  exact h.1

private theorem Session.Steady.interval_ok {session : Session} (h : session.Steady) :
    ∃ ms, session.playback.interval = .ok ms :=
  h.2.interval_ok h.1

namespace Desk

/-- A wake-up of a steady session does not break off. -/
private theorem react_completes {desk : Desk} {wakeUp : WakeUp}
    (h : ∀ session, desk.sessions[wakeUp.session]? = some session → session.Steady) (now : Int) :
    (desk.react now wakeUp).failure = none := by
  by_cases ha : ∃ session, desk.sessions[wakeUp.session]? = some session ∧
      session.playback.awaits wakeUp.generation = true
  · obtain ⟨session, found, hawaits⟩ := ha
    obtain ⟨hstopped, hrunning⟩ := (react_of_awaits now found hawaits).2 _ rfl
    obtain ⟨delay, hdelay⟩ := ((h session found).act desk.surface .step).interval_ok
    by_cases hm : (session.playback.act desk.surface .step).playback.mode = .running
    · exact (hrunning hm delay hdelay).2
    · exact (hstopped hm).2
  · rw [react_of_not_awaits]
    intro session found
    exact Bool.eq_false_iff.mpr fun hawaits => ha ⟨session, found, hawaits⟩

/-- A session at a place of a desk, and the same session at a desk of its own. Nothing else is compared: not even the
surfaces. -/
structure Apart (index : Nat) (session : Session) (desk alone : Desk) : Prop where
  found : desk.sessions[index]? = some session
  alone_eq : alone.sessions = [session]
  minimum : desk.setup.minimumSpeed = .whole 1
  steady : ∀ other ∈ desk.sessions, other.Steady

namespace Apart
variable {index : Nat} {session : Session} {desk alone : Desk}

private theorem found' (h : Apart index session desk alone) : alone.sessions[0]? = some session :=
  @getElem?_newest alone [] session h.alone_eq

private theorem own (h : Apart index session desk alone) (a : Playback.Act) :
    Apart index { session with playback := (session.playback.act desk.surface a).playback }
      (desk.perform index session a) (alone.perform 0 session a) := by
  refine ⟨?_, ?_, h.minimum, each_perform h.steady h.found a fun hsession => hsession.act desk.surface a⟩
  · rw [getElem?_perform h.found, if_pos rfl]
  · rw [session.playback.act_apart desk.surface alone.surface a]
    exact @settle_newest alone [] session h.alone_eq _

private theorem other (h : Apart index session desk alone) {place : Nat} {third : Session}
    (found : desk.sessions[place]? = some third) (hne : place ≠ index) (a : Playback.Act) :
    Apart index session (desk.perform place third a) alone := by
  refine ⟨?_, h.alone_eq, h.minimum, each_perform h.steady found a fun hthird => hthird.act desk.surface a⟩
  rw [getElem?_perform found, if_neg hne]
  exact h.found

private theorem opened (h : Apart index session desk alone) (text : String) (speed : Option Quantity) (scale : Float)
    (s : Surface) : Apart index session (desk.opened (Session.create desk.setup text speed scale s)) alone := by
  refine ⟨?_, h.alone_eq, h.minimum, ?_⟩
  · rw [Desk.opened, List.getElem?_append_left (List.getElem?_eq_some_iff.mp h.found).1, h.found]
  · intro other hother
    obtain hold | hnew := List.mem_append.mp hother
    · exact h.steady other hold
    · rw [List.mem_singleton.mp hnew, Session.create_eq]
      exact ⟨h.minimum, speed, rfl⟩

end Apart

/-- A wake-up of another session lets that session step, and is scheduled again for it at most. -/
private theorem simulation_apart (index : Nat) :
    Agenda.Simulation Desk.react (WakeUp.ofSession index) fun desk alone => ∃ session, Apart index session desk alone := by
  refine ⟨?_, ?_⟩
  · rintro desk alone ⟨session, h⟩ now wakeUp hother
    have hne : wakeUp.session ≠ index := by
      intro heq
      rw [WakeUp.ofSession, if_pos heq] at hother
      cases hother
    refine ⟨⟨session, ?_⟩, ?_, ?_⟩
    · obtain heq | ⟨third, found, -, heq⟩ := desk.react_world now wakeUp
      · rw [heq]
        exact h
      · rw [heq]
        exact h.other found hne .step
    · exact react_completes (fun third found => h.steady third (List.mem_of_getElem? found)) now
    · intro post hpost
      rw [desk.posts_task now wakeUp hpost, hother]
  · rintro desk alone ⟨session, h⟩ now now' wakeUp wakeUp' hkept
    obtain ⟨generation, rfl, rfl⟩ : ∃ generation, wakeUp = ⟨index, generation⟩ ∧ wakeUp' = ⟨0, generation⟩ := by
      rw [WakeUp.ofSession] at hkept
      split at hkept
      · rename_i heq
        cases hkept
        exact ⟨wakeUp.generation, by rw [← heq], rfl⟩
      · cases hkept
    cases ha : session.playback.awaits generation with
    | false =>
      rw [@react_idle desk ⟨index, generation⟩ session h.found ha, @react_idle alone ⟨0, generation⟩ session h.found' ha]
      exact ⟨⟨session, h⟩, rfl, rfl, rfl⟩
    | true =>
      have hsession : session.Steady := h.steady session (List.mem_of_getElem? h.found)
      have hsame := session.playback.act_apart desk.surface alone.surface .step
      obtain ⟨hworld, hworld', hok, hok', delays, hposts, hposts'⟩ :=
        @react_alike desk alone ⟨index, generation⟩ ⟨0, generation⟩ session session now now' h.found h.found' ha ha _ _
          rfl rfl (by rw [hsame]) (by rw [hsame]) (hsession.act desk.surface .step).interval_ok
      refine ⟨⟨_, by rw [hworld, hworld']; exact h.own .step⟩, hok, hok', ?_⟩
      rw [hposts, hposts', List.map_map, List.map_map]
      simp [WakeUp.ofSession]

end Desk

namespace Bench

structure Apart (index : Nat) (shift : Int) (b alone : Bench) : Prop where
  desks : ∃ session, Desk.Apart index session b.desk alone.desk
  agendas : Agenda.Hosts (WakeUp.ofSession index) shift b.agenda alone.agenda

theorem perform_act_of_none {b : Bench} {index : Nat} (missing : b.desk.sessions[index]? = none) (a : Playback.Act) :
    (b.perform (a.event index)).1 = b := by
  cases a with
  | pause => simp [Playback.Act.event, perform, Desk.update_of_none _ missing]
  | setSpeed speed => simp [Playback.Act.event, perform, Desk.update_of_none _ missing]
  | _ => simp [Playback.Act.event, perform, missing]

namespace Apart
variable {index : Nat} {shift : Int} {b alone : Bench}

private theorem own (h : Apart index shift b alone) (a : Playback.Act) :
    Apart index shift (b.perform (a.event index)).1 (alone.perform (a.event 0)).1 := by
  obtain ⟨session, hdesk⟩ := h.desks
  rw [perform_act hdesk.found, perform_act hdesk.found']
  refine ⟨⟨_, hdesk.own a⟩, ?_⟩
  dsimp only
  split
  · exact h.agendas.schedule 0 (if_pos rfl)
  · exact h.agendas

private theorem other (h : Apart index shift b alone) {place : Nat} (hne : place ≠ index) (a : Playback.Act) :
    Apart index shift (b.perform (a.event place)).1 alone := by
  obtain ⟨session, hdesk⟩ := h.desks
  cases found : b.desk.sessions[place]? with
  | none =>
    rw [perform_act_of_none found]
    exact h
  | some third =>
    rw [perform_act found]
    refine ⟨⟨session, hdesk.other found hne a⟩, ?_⟩
    dsimp only
    split
    · exact h.agendas.schedule_skipped 0 (if_neg hne)
    · exact h.agendas

/-- An act of any session, beside the same act of the session alone if it is its own. -/
private theorem act (h : Apart index shift b alone) (place : Nat) (a : Playback.Act) :
    Apart index shift (b.perform (a.event place)).1
      (alone.after (if place = index then some (a.event 0) else none).toList) := by
  split
  · rename_i heq
    rw [heq]
    exact h.own a
  · rename_i hne
    exact h.other hne a

private theorem opened (h : Apart index shift b alone) (text : String) (speed : Option Quantity) (scale : Float) (s : Surface) :
    Apart index shift { b with desk := b.desk.opened (Session.create b.desk.setup text speed scale s) } alone := by
  obtain ⟨session, hdesk⟩ := h.desks
  exact ⟨⟨session, hdesk.opened text speed scale s⟩, h.agendas⟩

private theorem event (h : Apart index shift b alone) (e : Event) (calls : ∀ limit, e ≠ .runPending limit) :
    Apart index shift (b.perform e).1 (alone.after (e.partOf index).toList) := by
  cases e with
  | step place => exact h.act place .step
  | run place => exact h.act place .run
  | pause place => exact h.act place .pause
  | reset place => exact h.act place .reset
  | setSpeed place speed => exact h.act place (.setSpeed speed)
  | replace old text speed scale =>
    cases old with
    | none => exact h.opened text speed scale b.desk.surface
    | some place => exact (h.act place .pause).opened text speed scale b.desk.surface
  | advance ms =>
    obtain ⟨hagendas, hdesks⟩ := h.agendas.advance (Desk.simulation_apart index) Desk.pays_react h.desks ms
    exact ⟨hdesks, hagendas⟩
  | runPending limit => exact absurd rfl (calls limit)
  | view change =>
    obtain ⟨session, hdesk⟩ := h.desks
    exact ⟨⟨session, hdesk.found, hdesk.alone_eq, hdesk.minimum, hdesk.steady⟩, h.agendas⟩

private theorem after (h : Apart index shift b alone) (events : List Event) (calls : ∀ limit, .runPending limit ∉ events) :
    Apart index shift (b.after events) (alone.after (events.filterMap (Event.partOf index))) := by
  induction events generalizing b alone with
  | nil => exact h
  | cons e events ih =>
    have hparts : (e :: events).filterMap (Event.partOf index) =
        (e.partOf index).toList ++ events.filterMap (Event.partOf index) := by
      rw [List.filterMap_cons]
      cases e.partOf index <;> rfl
    rw [after_cons, hparts, after_append]
    refine ih (h.event e fun limit heq => ?_) fun limit hmem => calls limit (List.mem_cons_of_mem e hmem)
    exact calls limit (heq ▸ List.mem_cons_self)

private theorem reply (h : Apart index shift b alone) (a : Playback.Act) :
    (b.perform (a.event index)).2 = (alone.perform (a.event 0)).2 := by
  obtain ⟨session, hdesk⟩ := h.desks
  rw [perform_act hdesk.found, perform_act hdesk.found', session.playback.step_apart b.desk.surface alone.desk.surface]

/-- A session that is opened is apart from those that are there already and from all the wake-ups that wait. -/
private theorem opening {setup : Setup} {b : Bench} (hsetup : b.desk.setup = setup) (hmin : setup.minimumSpeed = .whole 1)
    (wired : b.desk.Wired b.agenda.entries) (sorted : Agenda.Sorted b.agenda.entries) (old : Option Nat) (text : String)
    (speed : Option Quantity) (scale : Float) (surface : Surface) :
    Apart b.desk.sessions.length b.agenda.now (b.perform (.replace old text speed scale)).1
      (Bench.start setup surface text speed scale) := by
  subst hsetup
  have hwired := (wired.replace old text speed scale).paced
  have hstop : (b.desk.stop old).sessions.length = b.desk.sessions.length := by
    obtain heq | ⟨index, session, -, heq⟩ := b.desk.stop_cases old
    · rw [heq]
    · rw [heq, Desk.sessions_perform, List.length_set]
  have hdesk : (b.perform (.replace old text speed scale)).1.desk = b.desk.replace old text speed scale := rfl
  refine ⟨⟨⟨text, .fresh b.desk.setup text speed scale⟩, ?_, ?_, ?_, ?_⟩, ?_⟩
  · rw [hdesk, Desk.replace_eq, Session.create_eq, Desk.opened, ← hstop]
    simp
  · rw [start_desk]
  · exact (setup_perform rfl (.replace old text speed scale)).symm ▸ hmin
  · intro other hother
    obtain ⟨place, hplace⟩ := List.getElem?_of_mem hother
    obtain ⟨hsame, hpaced⟩ := hwired place other hplace
    exact ⟨by rw [hsame]; exact (wired.replace old text speed scale).minimum, hpaced⟩
  · refine ⟨(Int.zero_add _).symm, sorted, Agenda.Among.of_none fun x hx => ?_⟩
    obtain ⟨session, found, -⟩ := wired.known x hx
    have hlt := (List.getElem?_eq_some_iff.mp found).1
    exact if_neg (Nat.ne_of_lt hlt)

end Apart

/-- Whatever any number of sessions on one surface have done before a session is opened among them, and whatever they
and the sessions that are opened later do from then on, at any times and in any order with its own acts, the session is
in every respect what it is on a bench of its own, after its own acts and the time that passed between them: the same
machine, mode, speed, marked line and diagnostics. Every step of it answers alike. -/
theorem sessions_act_apart (preset : Preset) (followed : Bool) (surface other : Surface) (before : List Event)
    (old : Option Nat) (text : String) (speed : Option Quantity) (scale : Float) (events : List Event)
    (calls : ∀ limit, .runPending limit ∉ events) :
    let setup := (Settings.ofPreset preset).setup followed
    let b := (ofSurface setup surface).after before
    let index := b.desk.sessions.length
    let shared := (b.perform (.replace old text speed scale)).1.after events
    let alone := (start setup other text speed scale).after (events.filterMap (Event.partOf index))
    ∃ session, shared.desk.sessions[index]? = some session ∧ alone.desk.sessions = [session] ∧
      ∀ a : Playback.Act, (shared.perform (a.event index)).2 = (alone.perform (a.event 0)).2 := by
  intro setup b index shared alone
  have hmin : setup.minimumSpeed = .whole 1 := Settings.minimumSpeed_ofPreset preset followed
  have hwired : b.desk.Wired b.agenda.entries := wired_after (wired_ofSurface setup surface hmin) before
  have hsorted : Agenda.Sorted b.agenda.entries :=
    invariant_after (P := fun b => Agenda.Sorted b.agenda.entries) (fun _ e h => sorted_perform h e)
      (b := ofSurface setup surface) .nil before
  have hsetup : b.desk.setup = setup :=
    invariant_after (P := fun b => b.desk.setup = setup) (fun _ e h => setup_perform h e)
      (b := ofSurface setup surface) rfl before
  have hapart : Apart index b.agenda.now shared alone :=
    (Apart.opening hsetup hmin hwired hsorted old text speed scale other).after events calls
  obtain ⟨session, hdesk⟩ := hapart.desks
  exact ⟨session, hdesk.found, hdesk.alone_eq, hapart.reply⟩

/-- Two sessions at one speed: their wake-ups fall due at the same times until the first one is reset. Then the second
one is broken off and does one step more. -/
theorem sessions_act_apart_tied :
    let surface := Surface.ofSize (.whole 800) (.whole 600)
    let text := "G01 X1\nG91\nG99\nG01 X2\nM02"
    let before : List Event := [.replace none text (some (.whole 5)) 1, .run 0, .advance 100]
    let events : List Event := [.advance 100, .run 1, .setSpeed 0 (some (.whole 7)), .advance 200, .reset 0, .run 0,
      .advance 200, .pause 1, .advance 100, .step 1, .setSpeed 1 none]
    (∀ limit, .runPending limit ∉ events) ∧
    let setup := (Settings.ofPreset .default).setup true
    let b := (ofSurface setup surface).after before
    let index := b.desk.sessions.length
    let shared := (b.perform (.replace none text (some (.whole 5)) 1)).1.after events
    let alone := (start setup surface text (some (.whole 5)) 1).after (events.filterMap (Event.partOf index))
    (index = 1 ∧ shared.desk.sessions.map (fun session => (session.playback.mode, session.playback.cursor)) =
      [(.running, 3), (.stepping, 4)]) ∧
    ∃ session, shared.desk.sessions[index]? = some session ∧ alone.desk.sessions = [session] ∧
      ∀ a : Playback.Act, (shared.perform (a.event index)).2 = (alone.perform (a.event 0)).2 := by
  intro surface text before events
  have calls : ∀ limit, .runPending limit ∉ events := by simp [events]
  refine ⟨calls, ⟨by decide +kernel, by decide +kernel⟩, ?_⟩
  exact sessions_act_apart .default true surface surface before none text (some (.whole 5)) 1 events calls

end Bench

end WireCut
