import WireCut.Proofs.Bench.Beats
import WireCut.Proofs.Bench.Each
import WireCut.Proofs.Bench.Sound

/-! The tempo of a run. While only time passes and speeds are set, a running session executes its commands at times
that follow one another by the interval of the speed at which the earlier one was executed, however the time is moved
forward. -/
namespace WireCut

def Event.passes : Event → Bool
  | .advance ms => decide (0 ≤ ms)
  | .setSpeed _ _ => true
  | _ => false

def Event.elapsed : Event → Int
  | .advance ms => ms
  | _ => 0

namespace Bench
variable {b : Bench} {index : Nat} {session mid later : Session} {due next last : Int} {events : List Event}

/-- The course of a session over a list of events. Its commands are at a rhythm from when the first one is due, none
is later than the clock, and when time has passed, the next one is ahead of the clock. As long as no other speed is
set, all are executed at one speed. -/
structure Course (b : Bench) (index : Nat) (events : List Event) (session : Session) (due : Int) (later : Session)
    (next : Int) : Prop where
  onTime : (b.after events).desk.OnTime (b.after events).agenda index later next
  text : later.text = session.text
  setup : later.playback.setup = session.playback.setup
  rhythm : Rhythm due session.playback.cursor (b.beats index events) next later.playback.cursor
  clock : (b.after events).agenda.now = b.agenda.now + (events.map Event.elapsed).sum
  forward : b.agenda.now ≤ (b.after events).agenda.now
  past : ∀ beat ∈ b.beats index events, beat.time ≤ (b.after events).agenda.now
  ahead : later.playback.mode = .running → (∃ ms, .advance ms ∈ events) ∨ b.agenda.now < due →
    (b.after events).agenda.now < next
  steady : (∀ v, .setSpeed index v ∈ events → session.playback.setup.accepted v = session.playback.speed) →
    later.playback.speed = session.playback.speed ∧ ∀ beat ∈ b.beats index events, beat.speed = session.playback.speed

/-- Time that moves forward is a run of what is due, and then the clock is set. -/
private theorem perform_advance (h : b.desk.Wired b.agenda.entries) (ms : Int) :
    let out := Agenda.drain Desk.react (fun due => decide (due ≤ b.agenda.now + ms)) b.budget ⟨b.agenda, b.desk, 0, none⟩
    (b.perform (.advance ms)).1 = ⟨out.world, { out.agenda with now := b.agenda.now + ms }⟩ := by
  intro out
  have hout : (b.perform (.advance ms)).1 = ⟨(b.agenda.advance Desk.react b.budget ms b.desk).world,
      (b.agenda.advance Desk.react b.budget ms b.desk).agenda⟩ := rfl
  rw [hout, Agenda.advance_eq rfl (drain_ok h _ b.budget)]

namespace Course

private theorem nil (h : b.desk.OnTime b.agenda index session due) : b.Course index [] session due session due :=
  ⟨h, rfl, rfl, .rest, (Int.add_zero _).symm, Int.le_refl _, nofun,
    fun _ h => h.elim (fun ⟨_, hmem⟩ => nomatch hmem) id, fun _ => ⟨rfl, nofun⟩⟩

/-- A session that runs has been running. -/
private theorem running (h : b.Course index events session due later next) (hm : later.playback.mode = .running)
    (hstart : b.desk.OnTime b.agenda index session due) : session.playback.mode = .running := by
  obtain ⟨hrunning, -⟩ | ⟨-, hend⟩ := hstart.stage
  · exact hrunning
  · have hlt := h.onTime.cursor_lt hm
    rw [h.rhythm.length_eq, hend, Session.halt, Session.halt, h.text] at hlt
    omega

private theorem cons {e : Event} (first : b.Course index [e] session due mid next)
    (rest : (b.perform e).1.Course index events mid next later last) :
    b.Course index (e :: events) session due later last := by
  have hbeats : b.beats index (e :: events) = b.beats index [e] ++ (b.perform e).1.beats index events := by
    simp [beats]
  have hsetup := rest.setup.trans first.setup
  have hclock := first.clock
  rw [List.map_singleton, List.sum_singleton] at hclock
  refine ⟨rest.onTime, rest.text.trans first.text, hsetup, ?_, ?_, Int.le_trans first.forward rest.forward, ?_, ?_, ?_⟩
  · rw [hbeats]
    exact first.rhythm.append rest.rhythm
  · rw [List.map_cons, List.sum_cons, ← Int.add_assoc, ← hclock]
    exact rest.clock
  · rw [hbeats]
    intro beat hbeat
    obtain hbeat | hbeat := List.mem_append.mp hbeat
    · exact Int.le_trans (first.past beat hbeat) rest.forward
    · exact rest.past beat hbeat
  · intro hm hpassed
    have hmid : mid.playback.mode = .running := rest.running hm first.onTime
    obtain ⟨ms, hms⟩ | hahead := hpassed
    · obtain rfl | hms := List.mem_cons.mp hms
      · exact rest.ahead hm (.inr (first.ahead hmid (.inl ⟨ms, List.mem_cons_self⟩)))
      · exact rest.ahead hm (.inl ⟨ms, hms⟩)
    · exact rest.ahead hm (.inr (first.ahead hmid (.inr hahead)))
  · intro hkept
    obtain ⟨hspeed, hsame⟩ := first.steady fun v hv => hkept v (List.mem_cons.mpr (.inl (List.mem_singleton.mp hv)))
    have hrest := rest.steady fun v hv => by
      rw [first.setup, hspeed]
      exact hkept v (List.mem_cons_of_mem e hv)
    rw [hbeats]
    refine ⟨hrest.1.trans hspeed, fun beat hbeat => ?_⟩
    obtain hbeat | hbeat := List.mem_append.mp hbeat
    · exact hsame beat hbeat
    · exact (hrest.2 beat hbeat).trans hspeed

private theorem exists_advance (h : b.desk.OnTime b.agenda index session due) {ms : Int} (hms : 0 ≤ ms) :
    ∃ later next, b.Course index [.advance ms] session due later next := by
  have hafter : b.after [.advance ms] = _ := perform_advance h.wired ms
  have hahead : ∀ e ∈ (b.after [.advance ms]).agenda.entries, (b.after [.advance ms]).agenda.now < e.due :=
    fun e he => advance_ahead h.wired h.sorted ms he
  have hbeats : b.beats index [.advance ms] = b.desk.beats index (b.firings (.advance ms)) := List.append_nil _
  obtain ⟨p, last, honTime, hsetup, hspeed, hrhythm, hsame⟩ :=
    @Desk.OnTime.drain index session due ⟨b.agenda, b.desk, 0, none⟩ h
      (fun due => decide (due ≤ b.agenda.now + ms)) b.budget
  have hnow : (b.after [.advance ms]).agenda.now = b.agenda.now + ms := by rw [hafter]
  have hnext : (b.after [.advance ms]).desk.OnTime (b.after [.advance ms]).agenda index
      { session with playback := p } last := by
    rw [hafter]
    exact ⟨honTime.wired, honTime.sorted, honTime.found, honTime.program, honTime.stage, honTime.due⟩
  refine ⟨{ session with playback := p }, last, hnext, rfl, hsetup, ?_, ?_, ?_, ?_, ?_, fun _ => ⟨hspeed, ?_⟩⟩
  · rw [hbeats]
    exact hrhythm
  · rw [hnow, List.map_singleton, List.sum_singleton]
    rfl
  · rw [hnow]
    exact Int.le_add_of_nonneg_right hms
  · rw [hnow, hbeats]
    exact fun beat hbeat => of_decide_eq_true (hsame beat hbeat).1
  · intro hm _
    obtain ⟨e, he, hdue⟩ := hnext.exists_waiting hm
    rw [← hdue]
    exact hahead e he
  · rw [hbeats]
    exact fun beat hbeat => (hsame beat hbeat).2

private theorem exists_setSpeed (h : b.desk.OnTime b.agenda index session due) (other : Nat) (v : Option Quantity) :
    ∃ later, b.Course index [.setSpeed other v] session due later due := by
  have hagenda : (b.after [.setSpeed other v]).agenda = b.agenda := rfl
  have hwired : (b.after [.setSpeed other v]).desk.Wired b.agenda.entries := wired_perform h.wired (.setSpeed other v)
  have hdesk : (b.after [.setSpeed other v]).desk = b.desk.update other (·.setSpeed v) := rfl
  have hfound (i : Nat) : (b.after [.setSpeed other v]).desk.sessions[i]? = if other = i then
      b.desk.sessions[i]?.map fun session => { session with playback := session.playback.setSpeed v }
      else b.desk.sessions[i]? := by
    rw [hdesk, Desk.update, List.getElem?_modify]
    split <;> simp
  have hstays : (∃ ms, Event.advance ms ∈ [Event.setSpeed other v]) ∨ b.agenda.now < due → b.agenda.now < due := by
    simp
  by_cases hi : other = index
  · subst hi
    refine ⟨{ session with playback := session.playback.setSpeed v }, ?_⟩
    rw [session.playback.setSpeed_eq]
    refine ⟨⟨hwired, h.sorted, ?_, h.program, h.stage, h.due⟩, rfl, rfl, .rest, (Int.add_zero _).symm, Int.le_refl _,
      List.forall_mem_nil _, fun _ => hstays, fun hkept => ⟨hkept v List.mem_cons_self, List.forall_mem_nil _⟩⟩
    rw [hfound, if_pos rfl, h.found, Option.map_some, session.playback.setSpeed_eq]
  · refine ⟨session, ⟨hwired, h.sorted, ?_, h.program, h.stage, h.due⟩, rfl, rfl, .rest, (Int.add_zero _).symm,
      Int.le_refl _, List.forall_mem_nil _, fun _ => hstays, fun _ => ⟨rfl, List.forall_mem_nil _⟩⟩
    rw [hfound, if_neg hi, h.found]

/-- A session keeps its rhythm while time passes and speeds are set. -/
private theorem exists_course (h : b.desk.OnTime b.agenda index session due) (events : List Event)
    (passing : ∀ e ∈ events, e.passes = true) : ∃ later next, b.Course index events session due later next := by
  induction events generalizing b session due with
  | nil => exact ⟨session, due, .nil h⟩
  | cons e events ih =>
    have hfirst : ∃ mid next, b.Course index [e] session due mid next := by
      have hpasses := passing e List.mem_cons_self
      cases e with
      | advance ms => exact exists_advance h (of_decide_eq_true hpasses)
      | setSpeed other v =>
        obtain ⟨mid, hmid⟩ := exists_setSpeed h other v
        exact ⟨mid, due, hmid⟩
      | _ => cases hpasses
    obtain ⟨mid, next, first⟩ := hfirst
    obtain ⟨later, last, rest⟩ := ih first.onTime fun x hx => passing x (List.mem_cons_of_mem e hx)
    exact ⟨later, last, .cons first rest⟩

end Course

/-- A session that has commands left before its end and begins to run has its first command due at once. -/
private theorem onTime_run (hwired : b.desk.Wired b.agenda.entries) (hsorted : Agenda.Sorted b.agenda.entries)
    (found : b.desk.sessions[index]? = some session)
    (program : session.playback.program = (Program.commands session.text).toArray)
    (still : session.playback.mode ≠ .running) (left : session.playback.exhausted = false)
    (hlt : session.playback.cursor < session.halt) :
    (b.perform (.run index)).1.desk.OnTime (b.perform (.run index)).1.agenda index
        { session with playback := session.playback.run.1 } b.agenda.now ∧
      (b.perform (.run index)).1.agenda.now = b.agenda.now ∧
      session.playback.run.1 =
        { session.playback with mode := .running, generation := session.playback.generation + 1 } := by
  have hbegins : session.playback.run =
      ({ session.playback with mode := .running, generation := session.playback.generation + 1 }, true) := by
    obtain ⟨hm, -⟩ | ⟨-, hexhausted, -⟩ | ⟨-, -, heq⟩ := session.playback.run_cases
    · exact absurd hm still
    · rw [left] at hexhausted
      cases hexhausted
    · exact heq
  have hnext : (b.perform (.run index)).1 = ⟨b.desk.perform index session .run,
      b.agenda.schedule 0 ⟨index, session.playback.generation + 1⟩⟩ := by
    simp only [perform, found, hbegins, if_true, Desk.update_eq_settle _ found, Desk.perform, Playback.act]
  have hnow : (b.perform (.run index)).1.agenda.now = b.agenda.now := by rw [hnext]; rfl
  have hwired' := wired_perform hwired (.run index)
  have hsorted' := sorted_perform hsorted (.run index)
  rw [hnext] at hwired' hsorted' ⊢
  refine ⟨⟨hwired', hsorted', ?_, ?_, ?_, ?_⟩, rfl, congrArg Prod.fst hbegins⟩
  · rw [Desk.getElem?_perform found, if_pos rfl]
    rfl
  · rw [hbegins]
    exact program
  · rw [hbegins]
    exact .inl ⟨rfl, hlt⟩
  · intro e he hi hawaits
    rw [Agenda.entries_schedule] at he
    obtain rfl | he := Agenda.mem_insert.mp he
    · exact Int.add_zero _
    · -- the wake-ups from before are of earlier runs
      obtain ⟨own, hown, hle⟩ := hwired.known e he
      rw [hi, found] at hown
      cases hown
      have hsame := (Playback.awaits_iff.mp hawaits).1
      rw [hbegins] at hsame
      dsimp only at hsame
      omega

def awaited (b : Bench) (index : Nat) : List Int :=
  (b.agenda.entries.filter fun e => e.task.session = index && b.desk.awaits e.task).map Entry.due

/-- A speed that is set changes no time at which a session will be woken. -/
private theorem awaited_setSpeed (b : Bench) (other : Nat) (speed : Option Quantity) (index : Nat) :
    (b.perform (.setSpeed other speed)).1.awaited index = b.awaited index := by
  have hawaits (w : WakeUp) : (b.desk.update other (·.setSpeed speed)).awaits w = b.desk.awaits w := by
    rw [Desk.awaits, Desk.awaits, Desk.update, List.getElem?_modify]
    split
    · cases b.desk.sessions[w.session]? with
      | none => rfl
      | some session =>
        simp only [Option.any_some, Playback.setSpeed_eq]
        rfl
    · simp
  simp only [awaited, perform, hawaits]

private theorem awaited_of_onTime (h : b.desk.OnTime b.agenda index session due) :
    b.awaited index = if session.playback.mode = .running then [due] else [] := by
  have hfilter : (b.agenda.entries.filter fun e => e.task.session = index && b.desk.awaits e.task) =
      b.agenda.entries.filter fun e => e.task.session = index && session.playback.awaits e.task.generation := by
    refine List.filter_congr fun e _ => ?_
    by_cases hi : e.task.session = index
    · rw [Desk.awaits, hi, h.found, Option.any_some]
    · simp [hi]
  have hlength := h.wired.single index session h.found
  rw [Playback.waiting, List.countP_eq_length_filter] at hlength
  have hdue : ∀ e ∈ b.agenda.entries.filter
      fun e => e.task.session = index && session.playback.awaits e.task.generation, e.due = due := by
    intro e he
    obtain ⟨hmem, hlive⟩ := List.mem_filter.mp he
    rw [Bool.and_eq_true, decide_eq_true_eq] at hlive
    exact h.due e hmem hlive.1 hlive.2
  rw [awaited, hfilter]
  generalize b.agenda.entries.filter (fun e => e.task.session = index && session.playback.awaits e.task.generation) =
    entries at hlength hdue ⊢
  split
  · rename_i hm
    rw [if_pos hm, List.length_eq_one_iff] at hlength
    obtain ⟨e, rfl⟩ := hlength
    rw [List.map_singleton, hdue e List.mem_cons_self]
  · rename_i hm
    rw [if_neg hm, List.length_eq_zero_iff] at hlength
    rw [hlength]
    rfl

namespace Course

/-- A session whose speed is not changed has executed the commands that are due in the time that has passed. -/
private theorem place_eq (h : b.Course index events session b.agenda.now later next) {ms : Int}
    (interval : session.playback.speed.Interval ms) (hms : 0 < ms) (advanced : ∃ each, .advance each ∈ events)
    (kept : ∀ v, .setSpeed index v ∈ events → session.playback.setup.accepted v = session.playback.speed)
    (before : session.playback.cursor < session.halt) :
    later.playback.cursor =
      min session.halt (session.playback.cursor + 1 + ((events.map Event.elapsed).sum / ms).toNat) := by
  have hsteady := (h.steady kept).2
  have hclock := h.clock
  have hforward := h.forward
  refine h.rhythm.place_eq (fun beat hbeat => hsteady beat hbeat ▸ interval) hms (by omega) ?_ before ?_
  · rw [← hclock]
    exact h.past
  · have hhalt : later.halt = session.halt := by rw [Session.halt, h.text, Session.halt]
    rw [← hclock, ← hhalt]
    obtain ⟨hm, hlt⟩ | ⟨-, hend⟩ := h.onTime.stage
    · exact .inl ⟨hlt, h.ahead hm (.inl advanced)⟩
    · exact .inr hend

end Course

end Bench

def Session.Staged (session : Session) : Prop :=
  session.playback.program = (Program.commands session.text).toArray ∧
    session.playback.mode.fits session.halt session.playback.cursor

private theorem Session.Staged.cursor_lt {session : Session} (h : session.Staged) (ready : session.playback.mode ≠ .finished)
    (left : session.playback.cursor < session.playback.program.size) : session.playback.cursor < session.halt := by
  obtain ⟨hprogram, hfits⟩ := h
  obtain hlt | ⟨hm, -⟩ | ⟨-, hzero⟩ := hfits.cases
  · exact hlt
  · exact absurd hm ready
  · rw [hprogram, List.size_toArray] at left
    rw [hzero]
    exact Program.reach_pos (List.ne_nil_of_length_pos (Nat.zero_lt_of_lt left))

namespace Bench

private theorem staged_after (setup : Setup) (surface : Surface) (events : List Event) :
    ∀ session ∈ ((ofSurface setup surface).after events).desk.sessions, session.Staged :=
  each_after (Q := Session.Staged)
    (fun session s a h => ⟨(session.playback.act_program s a).trans h.1, Playback.fits_act s a h.1 h.2⟩)
    (fun _ _ _ _ => ⟨rfl, rfl⟩) setup surface events

/-- A session that has a command left and is not running begins to run, and then nothing is done but to let time pass
and to set speeds. Its commands are executed when they are due: the first one at the time on the clock at which the run
began, and each other one after the interval of the speed at which the one before it was executed. No command is
executed before it is due, and when time has passed, none that is due is left, up to the end of the program. The session
is woken once, when the next command is due, and a speed that is set does not change this time. As long as no other
speed is set, the time that has passed tells the place of the session, however it was let pass. -/
theorem run_keeps_tempo (preset : Preset) (followed : Bool) (surface : Surface) (events : List Event) (index : Nat)
    (session : Session)
    (found : ((ofSurface ((Settings.ofPreset preset).setup followed) surface).after events).desk.sessions[index]? =
      some session)
    (ready : session.playback.mode = .idle ∨ session.playback.mode = .stepping ∨ session.playback.mode = .paused)
    (left : session.playback.cursor < session.playback.program.size)
    (later : List Event) (passing : ∀ e ∈ later, e.passes = true) :
    let b := (ofSurface ((Settings.ofPreset preset).setup followed) surface).after events
    let halt := min ((Program.commands session.text).findIdx Command.ends + 1) (Program.commands session.text).length
    let ran := (b.perform (.run index)).1
    let out := ran.after later
    let beats := ran.beats index later
    let passed := (later.map Event.elapsed).sum
    ∃ p next, out.desk.sessions[index]? = some { session with playback := p } ∧
      out.agenda.now = b.agenda.now + passed ∧
      Rhythm b.agenda.now session.playback.cursor beats next p.cursor ∧
      (∀ beat ∈ beats, beat.time ≤ out.agenda.now) ∧
      (p.mode = .running ∧ p.cursor < halt ∧ out.awaited index = [next] ∧
          ((∃ ms, .advance ms ∈ later) → out.agenda.now < next) ∨
        p.mode = .finished ∧ p.cursor = halt ∧ out.awaited index = []) ∧
      (∀ other speed, (out.perform (.setSpeed other speed)).1.awaited index = out.awaited index) ∧
      ∀ ms, session.playback.speed.Interval ms → 0 < ms → (∃ each, .advance each ∈ later) →
        (∀ speed, .setSpeed index speed ∈ later → session.playback.setup.accepted speed = session.playback.speed) →
        p.cursor = min halt (session.playback.cursor + 1 + (passed / ms).toNat) := by
  intro b halt ran out beats passed
  have hhalt : session.halt = halt := Program.reach_eq_min _
  have hwired : b.desk.Wired b.agenda.entries :=
    wired_after (wired_ofSurface _ surface (Settings.minimumSpeed_ofPreset preset followed)) events
  have hsorted : Agenda.Sorted b.agenda.entries :=
    invariant_after (P := fun b => Agenda.Sorted b.agenda.entries) (fun _ e h => sorted_perform h e)
      (b := ofSurface ((Settings.ofPreset preset).setup followed) surface) .nil events
  have hstaged : session.Staged := staged_after _ surface events session (List.mem_of_getElem? found)
  have hready : session.playback.mode ≠ .running ∧ session.playback.mode ≠ .finished := by
    rcases ready with hm | hm | hm <;> simp [hm]
  have hlt : session.playback.cursor < session.halt := hstaged.cursor_lt hready.2 left
  have hleft : session.playback.exhausted = false := by
    rw [Playback.exhausted, Bool.or_eq_false_iff, decide_eq_false_iff_not, decide_eq_false_iff_not]
    exact ⟨hready.2, Nat.not_le.mpr left⟩
  obtain ⟨hstart, hnow, hrun⟩ := onTime_run hwired hsorted found hstaged.1 hready.1 hleft hlt
  rw [hrun, ← hnow] at hstart
  obtain ⟨last, next, course⟩ := Course.exists_course hstart later passing
  have hlast : last = { session with playback := last.playback } := by rw [← course.text]
  have hstage := course.onTime.stage
  rw [show last.halt = halt by rw [Session.halt, course.text, ← hhalt, Session.halt]] at hstage
  have hawaited := awaited_of_onTime course.onTime
  rw [← hnow]
  refine ⟨last.playback, next, hlast ▸ course.onTime.found, course.clock, course.rhythm, course.past, ?_, ?_, ?_⟩
  · obtain ⟨hm, hbefore⟩ | ⟨hm, hend⟩ := hstage
    · exact .inl ⟨hm, hbefore, hawaited.trans (if_pos hm), fun advanced => course.ahead hm (.inl advanced)⟩
    · exact .inr ⟨hm, hend, hawaited.trans (if_neg (by simp [hm]))⟩
  · exact fun other speed => out.awaited_setSpeed other speed index
  · intro ms hinterval hms advanced hkept
    rw [← hhalt]
    exact course.place_eq hinterval hms advanced hkept hlt

/-- A run from the second command on, at three commands per second. A speed of four hundred is set between two
commands: the next one stays due after 333 milliseconds, and the one behind it is due after two, where 2.5 would be
exact. -/
theorem run_keeps_tempo_retimed :
    let events : List Event :=
      [.replace none "G01 X1\nG91\nG01 X2\nG01 X3\nM02\nG90" (some (.whole 3)) 1, .step 0, .advance 10]
    let later : List Event := [.advance 100, .setSpeed 0 (some (.whole 400)), .advance 233]
    let b := (ofSurface ((Settings.ofPreset .default).setup true) (.ofSize (.whole 800) (.whole 600))).after events
    let ran := (b.perform (.run 0)).1
    let out := ran.after later
    let beats := ran.beats 0 later
    let passed := (later.map Event.elapsed).sum
    beats = [⟨10, 1, .whole 3⟩, ⟨343, 2, .whole 400⟩] ∧ out.agenda.now = 343 ∧ out.awaited 0 = [345] ∧
    (ran.after [.advance 100]).awaited 0 = [343] ∧ (∀ e ∈ later, e.passes = true) ∧
    ∃ session, b.desk.sessions[0]? = some session ∧ session.playback.mode = .stepping ∧
      session.playback.cursor < session.playback.program.size ∧
      let halt := min ((Program.commands session.text).findIdx Command.ends + 1) (Program.commands session.text).length
      ∃ p next, out.desk.sessions[0]? = some { session with playback := p } ∧
        out.agenda.now = b.agenda.now + passed ∧
        Rhythm b.agenda.now session.playback.cursor beats next p.cursor ∧
        (∀ beat ∈ beats, beat.time ≤ out.agenda.now) ∧
        (p.mode = .running ∧ p.cursor < halt ∧ out.awaited 0 = [next] ∧
            ((∃ ms, .advance ms ∈ later) → out.agenda.now < next) ∨
          p.mode = .finished ∧ p.cursor = halt ∧ out.awaited 0 = []) ∧
        (∀ other speed, (out.perform (.setSpeed other speed)).1.awaited 0 = out.awaited 0) ∧
        ∀ ms, session.playback.speed.Interval ms → 0 < ms → (∃ each, .advance each ∈ later) →
          (∀ speed, .setSpeed 0 speed ∈ later → session.playback.setup.accepted speed = session.playback.speed) →
          p.cursor = min halt (session.playback.cursor + 1 + (passed / ms).toNat) := by
  intro events later
  have hready : (((ofSurface ((Settings.ofPreset .default).setup true) (.ofSize (.whole 800) (.whole 600))).after
      events).desk.sessions.map fun session => (session.playback.mode,
        decide (session.playback.cursor < session.playback.program.size))) = [(.stepping, true)] := by decide +kernel
  obtain ⟨session, hsessions, heq⟩ := List.map_eq_singleton_iff.mp hready
  obtain ⟨hm, hleft⟩ := Prod.mk.inj heq
  have left : session.playback.cursor < session.playback.program.size := of_decide_eq_true hleft
  have passing : ∀ e ∈ later, e.passes = true := by decide
  refine ⟨by decide +kernel, by decide +kernel, by decide +kernel, by decide +kernel, passing, session, ?_, hm, left, ?_⟩
  · rw [hsessions]
    rfl
  · exact run_keeps_tempo .default true (.ofSize (.whole 800) (.whole 600)) events 0 session (by rw [hsessions]; rfl)
      (.inr (.inl hm)) left later passing

end Bench

end WireCut
