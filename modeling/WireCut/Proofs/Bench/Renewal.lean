import WireCut.Proofs.Bench.Each
import WireCut.Proofs.Bench.Replace
import WireCut.Proofs.Playback.Renewal

/-! Renewal of a session by a reset. From a reset on, a session goes on exactly as a new one with its text, its speed
and its scale, whatever it has done before and whatever wake-ups of its earlier runs still wait in the agenda. -/
namespace WireCut

def WakeUp.sinceRun (index runs : Nat) (wakeUp : WakeUp) : Option WakeUp :=
  if wakeUp.session = index ∧ runs < wakeUp.generation then some ⟨0, wakeUp.generation - runs⟩ else none

namespace WakeUp
variable {index runs : Nat}

private theorem sinceRun_add {generation : Nat} (begun : 0 < generation) :
    sinceRun index runs ⟨index, generation + runs⟩ = some ⟨0, generation⟩ := by
  rw [sinceRun, if_pos ⟨rfl, by dsimp only; omega⟩]
  simp

private theorem sinceRun_eq_some {wakeUp kept : WakeUp} (h : sinceRun index runs wakeUp = some kept) :
    ∃ generation, wakeUp = ⟨index, generation + runs⟩ ∧ kept = ⟨0, generation⟩ := by
  rw [sinceRun] at h
  split at h
  · rename_i hkept
    obtain ⟨rfl, hlt⟩ := hkept
    cases h
    exact ⟨wakeUp.generation - runs, by rw [Nat.sub_add_cancel (Nat.le_of_lt hlt)], rfl⟩
  · cases h

end WakeUp

/-- A speed that a playback has taken is one that it takes again. -/
private theorem Playback.Paced.accepted_eq {p : Playback} (h : p.Paced) (hmin : p.setup.minimumSpeed = .whole 1) :
    p.setup.accepted (some p.speed) = p.speed := by
  obtain ⟨hfinite, hone⟩ := h.speed_ok hmin
  rw [Setup.accepted, hmin, hfinite, hone]
  rfl

def Session.aged (session : Session) (runs : Nat) (log : Option (List Diagnostic)) : Session :=
  { session with playback := session.playback.aged runs log }

namespace Desk

/-- A session with a past at the end of a desk, behind sessions that rest, and the same session without its past at a
desk of its own. Both desks have the same surface, and the first one has older marks. -/
structure Renewed (retired : List Session) (past : List MarkChange) (runs : Nat) (log : Option (List Diagnostic))
    (session : Session) (desk alone : Desk) : Prop where
  sessions_eq : desk.sessions = retired ++ [session.aged runs log]
  alone_eq : alone.sessions = [session]
  surface_eq : desk.surface = alone.surface
  marks_eq : desk.marks = alone.marks ++ past
  resting : ∀ other ∈ retired, other.playback.mode ≠ .running
  minimum : session.playback.setup.minimumSpeed = .whole 1
  paced : session.playback.Paced
  begun : 0 < session.playback.generation

namespace Renewed
variable {retired : List Session} {past : List MarkChange} {runs : Nat} {log : Option (List Diagnostic)}
variable {session : Session} {desk alone : Desk}

private theorem found (h : Renewed retired past runs log session desk alone) :
    desk.sessions[retired.length]? = some (session.aged runs log) ∧ alone.sessions[0]? = some session :=
  ⟨getElem?_newest h.sessions_eq, @getElem?_newest alone [] session h.alone_eq⟩

private theorem perform (h : Renewed retired past runs log session desk alone) (a : Playback.Act) :
    ∃ log', Renewed retired past runs log' { session with playback := (session.playback.act desk.surface a).playback }
      (desk.perform retired.length (session.aged runs log) a) (alone.perform 0 session a) := by
  obtain ⟨log', hact⟩ := session.playback.act_aged runs log desk.surface a
  have hperform : desk.perform retired.length (session.aged runs log) a =
      desk.settle retired.length (session.aged runs log)
        ⟨(session.playback.act desk.surface a).playback.aged runs log',
          (session.playback.act desk.surface a).surface, (session.playback.act desk.surface a).marks⟩ :=
    congrArg (desk.settle retired.length (session.aged runs log)) hact
  refine ⟨log', ?_, ?_, ?_, ?_, h.resting, ?_, h.paced.act desk.surface a, ?_⟩
  · rw [hperform]
    exact settle_newest h.sessions_eq _
  · rw [h.surface_eq]
    exact @settle_newest alone [] session h.alone_eq _
  · rw [hperform, Desk.perform, ← h.surface_eq]
    rfl
  · rw [hperform, Desk.perform, ← h.surface_eq, settle, settle, h.marks_eq, List.append_assoc]
  · rw [session.playback.act_setup desk.surface a]
    exact h.minimum
  · exact Nat.lt_of_lt_of_le h.begun (session.playback.act_generation desk.surface a).1

private theorem view (h : Renewed retired past runs log session desk alone) (change : ViewChange) :
    Renewed retired past runs log session { desk with surface := desk.surface.view change }
      { alone with surface := alone.surface.view change } :=
  ⟨h.sessions_eq, h.alone_eq, by rw [h.surface_eq], h.marks_eq, h.resting, h.minimum, h.paced, h.begun⟩

end Renewed

private theorem simulation_renewed (retired : List Session) (past : List MarkChange) (runs : Nat) :
    Agenda.Simulation Desk.react (WakeUp.sinceRun retired.length runs)
      fun desk alone => ∃ log session, Renewed retired past runs log session desk alone := by
  refine ⟨?_, ?_⟩
  · -- a wake-up of another session finds that session at rest, and one of an earlier run is stale
    rintro desk alone ⟨log, session, h⟩ now ⟨index, generation⟩ hother
    suffices hidle : desk.react now ⟨index, generation⟩ = ⟨desk, [], none⟩ by
      rw [hidle]
      exact ⟨⟨log, session, h⟩, rfl, nofun⟩
    by_cases heq : index = retired.length
    · subst heq
      have hstale : ¬ runs < generation := by
        intro hlt
        rw [WakeUp.sinceRun, if_pos ⟨rfl, hlt⟩] at hother
        cases hother
      refine react_of_not_awaits now fun other found => ?_
      have hfound := h.found.1
      rw [found] at hfound
      cases hfound
      exact (Playback.awaits_aged h.begun).trans (by rw [decide_eq_false hstale, Bool.false_and])
    · exact react_of_not_awaits now (not_awaits_resting h.sessions_eq h.resting heq generation)
  · rintro desk alone ⟨log, session, h⟩ now now' wakeUp wakeUp' hkept
    obtain ⟨generation, rfl, rfl⟩ := WakeUp.sinceRun_eq_some hkept
    obtain ⟨hfound, hfound'⟩ := h.found
    have haged : (session.aged runs log).playback.awaits (generation + runs) =
        (decide (runs < generation + runs) && session.playback.awaits generation) := by
      have hboth : (session.playback.aged runs log).awaits (generation + runs) = _ := Playback.awaits_aged h.begun
      rwa [Nat.add_sub_cancel] at hboth
    cases ha : session.playback.awaits generation with
    | false =>
      rw [ha, Bool.and_false] at haged
      rw [@react_idle desk ⟨retired.length, generation + runs⟩ (session.aged runs log) hfound haged,
        @react_idle alone ⟨0, generation⟩ session hfound' ha]
      exact ⟨⟨log, session, h⟩, rfl, rfl, rfl⟩
    | true =>
      obtain ⟨hg, -⟩ := Playback.awaits_iff.mp ha
      have hbegun : 0 < generation := hg ▸ h.begun
      rw [ha, Bool.and_true, decide_eq_true (by omega)] at haged
      obtain ⟨log', hact⟩ := session.playback.act_aged runs log desk.surface .step
      obtain ⟨log'', hnext⟩ := h.perform .step
      obtain ⟨hworld, hworld', hok, hok', delays, hposts, hposts'⟩ :=
        @react_alike desk alone ⟨retired.length, generation + runs⟩ ⟨0, generation⟩ (session.aged runs log) session now
          now' hfound hfound' haged ha _ _ (congrArg Played.playback hact) rfl (by rw [h.surface_eq]; rfl)
          (by rw [h.surface_eq]; rfl) (hnext.paced.interval_ok hnext.minimum)
      refine ⟨⟨log'', _, by rw [hworld, hworld']; exact hnext⟩, hok, hok', ?_⟩
      rw [hposts, hposts', List.map_map, List.map_map]
      simp [WakeUp.sinceRun_add hbegun]

end Desk

namespace Bench

private theorem sourced_turns {b : Bench} (h : b.desk.Sourced) (ts : List Turn) : (b.turns ts).desk.Sourced := by
  induction ts generalizing b with
  | nil => exact h
  | cons t ts ih => exact ih (sourced_perform h (t.event b.newest))

structure Renewed (retired : List Session) (past : List MarkChange) (runs : Nat) (shift : Int) (b alone : Bench) :
    Prop where
  desks : ∃ log session, Desk.Renewed retired past runs log session b.desk alone.desk
  agendas : Agenda.Hosts (WakeUp.sinceRun retired.length runs) shift b.agenda alone.agenda

namespace Renewed
variable {retired : List Session} {past : List MarkChange} {runs : Nat} {shift : Int} {b alone : Bench}

private theorem deed (h : Renewed retired past runs shift b alone) (d : Deed) :
    Renewed retired past runs shift (b.perform (d.event retired.length)).1 (alone.perform (d.event 0)).1 := by
  obtain ⟨log, session, hdesk⟩ := h.desks
  cases d with
  | act a =>
    obtain ⟨hfound, hfound'⟩ := hdesk.found
    obtain ⟨log', hnext⟩ := hdesk.perform a
    rw [Deed.event, Deed.event, perform_act hfound, perform_act hfound']
    refine ⟨⟨log', _, hnext⟩, ?_⟩
    have hrun : (session.aged runs log).playback.run = (session.playback.run.1.aged runs log, session.playback.run.2) :=
      session.playback.run_aged runs log
    have hbegun : 0 < session.playback.run.1.generation :=
      Nat.lt_of_lt_of_le hdesk.begun (session.playback.act_generation b.desk.surface .run).1
    dsimp only
    rw [hrun]
    split
    · exact h.agendas.schedule 0 (WakeUp.sinceRun_add hbegun)
    · exact h.agendas
  | advance ms =>
    obtain ⟨hagendas, hdesks⟩ :=
      h.agendas.advance (Desk.simulation_renewed retired past runs) Desk.pays_react h.desks ms
    exact ⟨hdesks, hagendas⟩
  | view change => exact ⟨⟨log, session, hdesk.view change⟩, h.agendas⟩

private theorem reply (h : Renewed retired past runs shift b alone) (a : Playback.Act) :
    (b.perform (a.event retired.length)).2 = (alone.perform (a.event 0)).2 := by
  obtain ⟨log, session, hdesk⟩ := h.desks
  obtain ⟨hfound, hfound'⟩ := hdesk.found
  obtain ⟨log', hstep⟩ := session.playback.step_aged runs log b.desk.surface
  have hany : ((session.aged runs log).playback.step b.desk.surface).2 = (session.playback.step b.desk.surface).2 := by
    rw [show (session.aged runs log).playback = session.playback.aged runs log from rfl, hstep]
  rw [perform_act hfound, perform_act hfound', hany, hdesk.surface_eq]

private theorem after (h : Renewed retired past runs shift b alone) (deeds : List Deed) :
    Renewed retired past runs shift (b.after (deeds.map (Deed.event retired.length)))
      (alone.after (deeds.map (Deed.event 0))) := by
  induction deeds generalizing b alone with
  | nil => exact h
  | cons d deeds ih => exact ih (h.deed d)

end Renewed

namespace Succession
variable {setup : Setup} {b : Bench}

/-- When a session is reset, it is from then on a new one with the past that it has. -/
private theorem reset (h : Succession setup b) (hmin : setup.minimumSpeed = .whole 1) (sourced : b.desk.Sourced)
    {older : List Session} {old : Session} (hsessions : b.desk.sessions = older ++ [old])
    (resting : ∀ other ∈ older, other.playback.mode ≠ .running) :
    Renewed older b.desk.marks old.playback.generation b.agenda.now (b.perform (.reset older.length)).1
      (Bench.start setup (.ofSize b.desk.surface.width b.desk.surface.height) old.text (some old.playback.speed)
        old.playback.machine.scale) := by
  obtain rfl := h.setup_eq
  have hfound := Desk.getElem?_newest hsessions
  obtain ⟨hsetup, hpaced⟩ := h.wired.paced _ _ hfound
  have hprogram := sourced old (List.mem_of_getElem? hfound)
  have hspeed : b.desk.setup.accepted (some old.playback.speed) = old.playback.speed := by
    rw [← hsetup]
    exact hpaced.accepted_eq (by rw [hsetup, hmin])
  have hperform : (b.perform (.reset older.length)).1 = ⟨b.desk.perform older.length old .reset, b.agenda⟩ := by
    simp [perform, hfound, Desk.perform, Playback.act]
  rw [hperform]
  refine ⟨⟨old.playback.log, ⟨old.text, .fresh b.desk.setup old.text (some old.playback.speed)
    old.playback.machine.scale⟩, ?_⟩, ?_⟩
  · rw [start_desk]
    refine ⟨?_, rfl, ?_, ?_, resting, hmin, ⟨some old.playback.speed, rfl⟩, Nat.one_pos⟩
    · rw [Desk.perform, Desk.settle_newest hsessions]
      simp [Session.aged, Playback.aged, Playback.fresh, Playback.act, Playback.reset, Machine.reset, hsetup, hprogram,
        hspeed, Nat.add_comm]
    · simp only [Desk.perform, Desk.settle, Playback.act, Playback.reset, Playback.pen, hsetup]
      rfl
    · simp only [Desk.perform, Desk.settle, Playback.act, Playback.reset, hsetup]
      cases b.desk.setup.followed <;> rfl
  · refine ⟨(Int.zero_add _).symm, h.sorted, Agenda.Among.of_none ?_⟩
    -- a wake-up that waits is one of a run up to now
    intro x hx
    obtain ⟨session, found, hle⟩ := h.wired.known x hx
    rw [WakeUp.sinceRun, if_neg]
    rintro ⟨hindex, hlt⟩
    rw [hindex, hfound] at found
    cases found
    omega

end Succession

/-- From a reset on, a session goes on exactly as one that is opened anew with its text, its speed and its scale, on a
surface of the same size: whatever it has done before, whatever wake-ups of its own or of sessions before it still wait,
and whatever is done with it later, it has the mode, the machine, the speed and the marked line of the new one, it
leaves the surface alike and changes the marks alike, and its steps answer alike. -/
theorem reset_renews (preset : Preset) (followed : Bool) (surface : Surface) (first : String)
    (firstSpeed : Option Quantity) (firstScale : Float) (ts : List Turn) (deeds : List Deed) :
    let setup := (Settings.ofPreset preset).setup followed
    let b := (start setup surface first firstSpeed firstScale).turns ts
    ∃ older old, b.desk.sessions = older ++ [old] ∧
      let later := (b.perform (.reset b.newest)).1.after (deeds.map (Deed.event b.newest))
      let anew := (start setup (.ofSize b.desk.surface.width b.desk.surface.height) old.text (some old.playback.speed)
        old.playback.machine.scale).after (deeds.map (Deed.event 0))
      ∃ text p q, later.desk.sessions = older ++ [⟨text, p⟩] ∧ anew.desk.sessions = [⟨text, q⟩] ∧
        p.mode = q.mode ∧ p.machine = q.machine ∧ p.speed = q.speed ∧ p.marked = q.marked ∧ p.program = q.program ∧
        later.desk.surface = anew.desk.surface ∧ later.desk.marks = anew.desk.marks ++ b.desk.marks ∧
        ∀ a : Playback.Act, (later.perform (a.event b.newest)).2 = (anew.perform (a.event 0)).2 := by
  intro setup b
  have hmin : setup.minimumSpeed = .whole 1 := Settings.minimumSpeed_ofPreset preset followed
  have hb : Succession setup b := (Succession.start surface first firstSpeed firstScale hmin).turns ts
  have hsourced : b.desk.Sourced := sourced_turns (sourced_start setup surface first firstSpeed firstScale) ts
  obtain ⟨older, old, hsessions, resting⟩ := hb.newest
  refine ⟨older, old, hsessions, ?_⟩
  rw [Succession.newest_eq hsessions]
  intro later anew
  have hlater : Renewed older b.desk.marks old.playback.generation b.agenda.now later anew :=
    (hb.reset hmin hsourced hsessions resting).after deeds
  obtain ⟨log, session, hdesks⟩ := hlater.desks
  exact ⟨session.text, session.playback.aged old.playback.generation log, session.playback, hdesks.sessions_eq,
    hdesks.alone_eq, rfl, rfl, rfl, rfl, rfl, hdesks.surface_eq, hdesks.marks_eq, hlater.reply⟩

end Bench

end WireCut
