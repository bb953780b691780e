import WireCut.Proofs.Bench.Apart
import WireCut.Proofs.Bench.Sound
import WireCut.Proofs.Playback.Speed
import WireCut.Settings.File

/-! Runs that break off. A wake-up whose session has no interval executes its command and is not scheduled again. The
session still counts as running, so it is stranded: nothing wakes it any more, and it does not begin to run either. -/
namespace WireCut

/-- Whether an event is an act of a session that it takes to move a stranded one: a step of its own, or the end of its
run by a pause, a reset or a replacement. -/
def Event.frees (index : Nat) (e : Event) : Bool :=
  match e.actor with
  | some (place, .step) | some (place, .pause) | some (place, .reset) => place = index
  | _ => false

namespace Desk

/-- Everything that has happened when a wake-up breaks off: its session has made a step, runs on, and has no interval. -/
private theorem react_fails {desk : Desk} {now : Int} {wakeUp : WakeUp} {reason : ArithmeticError}
    (h : (desk.react now wakeUp).failure = some reason) :
    ∃ session, desk.sessions[wakeUp.session]? = some session ∧ session.playback.awaits wakeUp.generation = true ∧
      desk.react now wakeUp = ⟨desk.perform wakeUp.session session .step, [], some reason⟩ ∧
      (session.playback.act desk.surface .step).playback.mode = .running ∧
      (session.playback.act desk.surface .step).playback.interval = .error reason := by
  by_cases ha : ∃ session, desk.sessions[wakeUp.session]? = some session ∧
      session.playback.awaits wakeUp.generation = true
  · obtain ⟨session, found, hawaits⟩ := ha
    refine ⟨session, found, hawaits, ?_⟩
    have hwake := session.playback.wake_of_awaits desk.surface wakeUp.generation hawaits
    simp only [react, found, hwake] at h ⊢
    rw [Playback.act]
    by_cases hm : (session.playback.step desk.surface).1.playback.mode = .running
    · cases hinterval : (session.playback.step desk.surface).1.playback.interval with
      | ok ms => simp [hm, hinterval, Except.map] at h
      | error cause =>
        simp only [hm, hinterval, Except.map, if_true] at h ⊢
        cases h
        exact ⟨rfl, trivial, rfl⟩
    · simp [hm] at h
  · rw [react_of_not_awaits] at h
    · cases h
    · exact fun session found => Bool.eq_false_iff.mpr fun hawaits => ha ⟨session, found, hawaits⟩

private theorem react_posts_cases (desk : Desk) (now : Int) (wakeUp : WakeUp) :
    (desk.react now wakeUp).posts = [] ∨ ∃ delay, (desk.react now wakeUp).posts = [(delay, wakeUp)] := by
  have hlength := desk.react_posts now wakeUp
  have htask (post : Int × WakeUp) (h : post ∈ (desk.react now wakeUp).posts) : post.2 = wakeUp :=
    desk.posts_task now wakeUp h
  match hposts : (desk.react now wakeUp).posts with
  | [] => exact .inl rfl
  | [(delay, task)] =>
    rw [hposts] at htask
    have hsame : task = wakeUp := htask (delay, task) List.mem_cons_self
    exact .inr ⟨delay, by rw [hsame]⟩
  | _ :: _ :: _ =>
    rw [hposts] at hlength
    simp at hlength

namespace Counted
variable {desk : Desk} {x : Entry WakeUp} {entries : List (Entry WakeUp)}

private theorem tail (h : desk.Counted (· ≤ ·) (x :: entries)) : desk.Counted (· ≤ ·) entries :=
  ⟨fun e he => h.known e (List.mem_cons_of_mem x he), fun i session found =>
    ((List.sublist_cons_self x entries).countP_le).trans (h.count i session found)⟩

/-- A wake-up that is fired, whether it breaks off or not, leaves no session with two that it awaits. -/
private theorem react (h : desk.Counted (· ≤ ·) (x :: entries)) (agenda : Agenda WakeUp) (hrest : agenda.entries = entries) :
    (desk.react x.due x.task).world.Counted (· ≤ ·) (agenda.scheduleAll (desk.react x.due x.task).posts).entries := by
  have hworld : (desk.react x.due x.task).world.Counted (· ≤ ·) (x :: entries) := by
    obtain heq | ⟨session, found, -, heq⟩ := desk.react_world x.due x.task
    · rw [heq]
      exact h
    · rw [heq]
      exact h.perform_quiet Nat.le_refl found .step nofun
  obtain hposts | ⟨delay, hposts⟩ := desk.react_posts_cases x.due x.task
  · rw [hposts, Agenda.scheduleAll_nil, hrest]
    exact hworld.tail
  · rw [hposts, Agenda.scheduleAll_singleton, Agenda.entries_schedule, hrest]
    exact hworld.of_perm ((Agenda.perm_insert _ entries).map Entry.task)

end Counted

/-- A session at a place of a desk that runs, on a given machine, while no entry is one of its wake-ups that it awaits. -/
def Stranded (index : Nat) (machine : Machine) (desk : Desk) (entries : List (Entry WakeUp)) : Prop :=
  ∃ session, desk.sessions[index]? = some session ∧ session.playback.mode = .running ∧
    session.playback.machine = machine ∧ session.playback.waiting index entries = 0

namespace Stranded
variable {index : Nat} {machine : Machine} {desk : Desk} {entries : List (Entry WakeUp)}

/-- Where a wake-up breaks off that was the only one its session awaits, the session is stranded. -/
private theorem of_react_fails {x : Entry WakeUp} {reason : ArithmeticError} (h : desk.Counted (· ≤ ·) (x :: entries))
    (fails : (desk.react x.due x.task).failure = some reason) :
    (desk.react x.due x.task).posts = [] ∧ ∃ session,
      (desk.react x.due x.task).world.sessions[x.task.session]? = some session ∧ session.playback.mode = .running ∧
        session.playback.interval = .error reason ∧ session.playback.waiting x.task.session entries = 0 := by
  obtain ⟨session, found, hawaits, heq, hrunning, hinterval⟩ := react_fails fails
  rw [heq]
  refine ⟨rfl, _, by rw [getElem?_perform found, if_pos rfl], hrunning, hinterval, ?_⟩
  have hcount := h.count x.task.session session found
  rw [if_pos (Playback.awaits_iff.mp hawaits).2, Playback.waiting, List.countP_cons, hawaits] at hcount
  have still (h : Playback.Act.step = .run) : session.playback.run.2 = false := by cases h
  have hwaiting := session.playback.waiting_quiet desk.surface .step still x.task.session entries
  rw [if_pos hrunning] at hwaiting
  refine hwaiting.trans ?_
  rw [Playback.waiting]
  simpa using hcount

private theorem act {place : Nat} {session : Session} (h : Stranded index machine desk entries)
    (found : desk.sessions[place]? = some session) (a : Playback.Act)
    (other : place = index → a = .run ∨ ∃ speed, a = .setSpeed speed) :
    Stranded index machine (desk.perform place session a) entries := by
  obtain ⟨own, hown, hrunning, hmachine, hwaiting⟩ := h
  by_cases hi : place = index
  · subst hi
    rw [found] at hown
    cases hown
    refine ⟨_, by rw [getElem?_perform found, if_pos rfl], ?_⟩
    obtain rfl | ⟨speed, rfl⟩ := other rfl
    · have hrun : session.playback.run = (session.playback, false) := by rw [Playback.run, if_pos hrunning]
      simp only [Playback.act, hrun]
      exact ⟨hrunning, hmachine, hwaiting⟩
    · simp only [Playback.act, Playback.setSpeed_eq]
      exact ⟨hrunning, hmachine, hwaiting⟩
  · exact ⟨own, by rw [getElem?_perform found, if_neg hi, hown], hrunning, hmachine, hwaiting⟩

private theorem insert {e : Entry WakeUp} (h : Stranded index machine desk entries) (other : e.task.session ≠ index) :
    Stranded index machine desk (Agenda.insert e entries) := by
  obtain ⟨own, hown, hrunning, hmachine, hwaiting⟩ := h
  refine ⟨own, hown, hrunning, hmachine, ?_⟩
  rw [Playback.waiting_insert, hwaiting]
  simp [other]

private theorem tail {x : Entry WakeUp} (h : Stranded index machine desk (x :: entries)) :
    Stranded index machine desk entries := by
  obtain ⟨own, hown, hrunning, hmachine, hwaiting⟩ := h
  exact ⟨own, hown, hrunning, hmachine,
    Nat.eq_zero_of_le_zero (hwaiting ▸ (List.sublist_cons_self x entries).countP_le)⟩

/-- No wake-up that is fired reaches a stranded session, and none is scheduled for it. -/
private theorem react {x : Entry WakeUp} (h : Stranded index machine desk (x :: entries)) (agenda : Agenda WakeUp)
    (hrest : agenda.entries = entries) :
    Stranded index machine (desk.react x.due x.task).world
      (agenda.scheduleAll (desk.react x.due x.task).posts).entries := by
  have htail := h.tail
  by_cases hi : x.task.session = index
  · obtain ⟨own, hown, -, -, hwaiting⟩ := h
    rw [react_of_not_awaits, Agenda.scheduleAll_nil, hrest]
    · exact htail
    · intro session found
      rw [hi, hown] at found
      cases found
      rw [Playback.waiting, List.countP_eq_zero] at hwaiting
      simpa [hi] using hwaiting x List.mem_cons_self
  · have hworld : Stranded index machine (desk.react x.due x.task).world entries := by
      obtain heq | ⟨session, found, -, heq⟩ := desk.react_world x.due x.task
      · rw [heq]
        exact htail
      · rw [heq]
        exact htail.act found .step fun heq => absurd heq hi
    obtain hposts | ⟨delay, hposts⟩ := desk.react_posts_cases x.due x.task
    · rw [hposts, Agenda.scheduleAll_nil, hrest]
      exact hworld
    · rw [hposts, Agenda.scheduleAll_singleton, Agenda.entries_schedule, hrest]
      exact hworld.insert hi

private theorem opened (h : Stranded index machine desk entries) (opening : Opened) :
    Stranded index machine (desk.opened opening) entries := by
  obtain ⟨own, hown, hrest⟩ := h
  refine ⟨own, ?_, hrest⟩
  rw [Desk.opened, List.getElem?_append_left (List.getElem?_eq_some_iff.mp hown).1, hown]

end Stranded

end Desk

namespace Bench

private theorem counted_perform {b : Bench} (h : b.desk.Counted (· ≤ ·) b.agenda.entries) (e : Event) :
    (b.perform e).1.desk.Counted (· ≤ ·) (b.perform e).1.agenda.entries := by
  refine invariant_perform (P := fun agenda desk => desk.Counted (· ≤ ·) agenda.entries) ?_ (fun _ _ _ h => h) b e
    (fun next himm => ?_) h
  · intro agenda desk x rest he hd
    rw [he] at hd
    exact hd.react (agenda.taken x.due rest) rfl
  · cases himm with
    | nothing => exact h
    | act _ index session a found still => exact h.perform_quiet Nat.le_refl found a still
    | begin index session found begins => exact h.perform_begin Nat.le_refl found begins _ _
    | replace old text speed scale => exact h.replace Nat.le_refl old text speed scale
    | view change => exact ⟨h.known, h.count⟩

private theorem counted_after (setup : Setup) (surface : Surface) (events : List Event) :
    ((ofSurface setup surface).after events).desk.Counted (· ≤ ·)
      ((ofSurface setup surface).after events).agenda.entries :=
  invariant_after (P := fun b => b.desk.Counted (· ≤ ·) b.agenda.entries) (fun _ e h => counted_perform h e)
    (b := ofSurface setup surface)
    ⟨fun _ h => by simp [ofSurface, Agenda.empty] at h, fun _ _ h => by simp [ofSurface] at h⟩ events

private theorem ruled_after (setup : Setup) (surface : Surface) (events : List Event) :
    ((ofSurface setup surface).after events).desk.Ruled := by
  refine invariant_after (P := fun b => b.desk.Ruled) (fun b e h => ?_) (b := ofSurface setup surface)
    (fun _ _ h => by simp [ofSurface] at h) events
  exact desk_perform (P := Desk.Ruled) b e (fun _ _ _ a _ found hd => hd.perform found a) (fun _ _ hd => hd)
    (fun old text speed scale _ hd => hd.replace old text speed scale) h

/-- An event that does not act to free it leaves a stranded session as it is. -/
private theorem stranded_perform {index : Nat} {machine : Machine} {b : Bench} (e : Event) (frees : e.frees index = false)
    (h : b.desk.Stranded index machine b.agenda.entries) :
    (b.perform e).1.desk.Stranded index machine (b.perform e).1.agenda.entries := by
  have fire (agenda : Agenda WakeUp) (desk : Desk) (x : Entry WakeUp) (rest : List (Entry WakeUp))
      (he : agenda.entries = x :: rest) (hd : desk.Stranded index machine agenda.entries) :
      (desk.react x.due x.task).world.Stranded index machine
        ((agenda.taken x.due rest).scheduleAll (desk.react x.due x.task).posts).entries := by
    rw [he] at hd
    exact hd.react (agenda.taken x.due rest) rfl
  have act (place : Nat) (a : Playback.Act) (frees : (a.event place).frees index = false) :
      (b.perform (a.event place)).1.desk.Stranded index machine (b.perform (a.event place)).1.agenda.entries := by
    cases found : b.desk.sessions[place]? with
    | none =>
      rw [perform_act_of_none found]
      exact h
    | some session =>
      have hdesk : (b.desk.perform place session a).Stranded index machine b.agenda.entries := by
        refine h.act found a ?_
        rintro rfl
        cases a with
        | run => exact .inl rfl
        | setSpeed speed => exact .inr ⟨speed, rfl⟩
        | _ => simp [Event.frees, Event.actor, Playback.Act.event] at frees
      rw [perform_act found]
      dsimp only
      split
      · rename_i hbegins
        refine hdesk.insert ?_
        rintro rfl
        obtain ⟨own, hown, hrunning, -⟩ := h
        rw [found] at hown
        cases hown
        simp [Playback.run, hrunning] at hbegins
      · exact hdesk
  cases e with
  | step place => exact act place .step frees
  | run place => exact act place .run frees
  | pause place => exact act place .pause frees
  | reset place => exact act place .reset frees
  | setSpeed place speed => exact act place (.setSpeed speed) frees
  | replace old text speed scale =>
    cases old with
    | none => exact h.opened _
    | some place => exact (act place .pause frees).opened _
  | advance ms =>
    exact Agenda.advance_keeps (P := fun agenda desk => desk.Stranded index machine agenda.entries) fire
      (fun _ _ _ h => h) b.budget ms b.agenda b.desk h
  | runPending limit =>
    exact Agenda.runPending_keeps (P := fun agenda desk => desk.Stranded index machine agenda.entries) fire
      limit b.agenda b.desk h
  | view change => exact h

private theorem stranded_after {index : Nat} {machine : Machine} {b : Bench} (h : b.desk.Stranded index machine b.agenda.entries)
    {events : List Event} (frees : ∀ e ∈ events, e.frees index = false) :
    (b.after events).desk.Stranded index machine (b.after events).agenda.entries := by
  induction events generalizing b with
  | nil => exact h
  | cons e events ih =>
    exact ih (stranded_perform e (frees e List.mem_cons_self) h) fun x hx => frees x (List.mem_cons_of_mem e hx)

/-- A running session does not begin to run again. -/
private theorem perform_run_running {b : Bench} {index : Nat} {session : Session} (found : b.desk.sessions[index]? = some session)
    (running : session.playback.mode = .running) : b.perform (.run index) = (b, .nothing) := by
  have hrun : session.playback.run = (session.playback, false) := by rw [Playback.run, if_pos running]
  simp only [perform, found, hrun]
  rw [Desk.update_eq_settle _ found, Desk.settle_self found]
  rfl

/-- A bench at which the wake-up that was due first has just broken off. -/
inductive BrokenOff (setup : Setup) (reason : ArithmeticError) : Bench → Prop
  | wakeUp (agenda : Agenda WakeUp) (desk : Desk) (x : Entry WakeUp) (rest : List (Entry WakeUp))
      (counted : desk.Counted (· ≤ ·) (x :: rest)) (ruled : desk.Ruled) (same : desk.setup = setup)
      (fails : (desk.react x.due x.task).failure = some reason) :
      BrokenOff setup reason ⟨(desk.react x.due x.task).world,
        (agenda.taken x.due rest).scheduleAll (desk.react x.due x.task).posts⟩

/-- Wake-ups that are fired one after the other fail only by one that breaks off. -/
private theorem brokenOff_of_drain {b : Bench} (h : b.desk.Counted (· ≤ ·) b.agenda.entries) (ruled : b.desk.Ruled)
    (allowed : Int → Bool) (limit : Nat) {reason : ArithmeticError}
    (fails : (Agenda.drain Desk.react allowed limit ⟨b.agenda, b.desk, 0, none⟩).failure = some reason) :
    BrokenOff b.desk.setup reason ⟨(Agenda.drain Desk.react allowed limit ⟨b.agenda, b.desk, 0, none⟩).world,
      (Agenda.drain Desk.react allowed limit ⟨b.agenda, b.desk, 0, none⟩).agenda⟩ := by
  let kept (agenda : Agenda WakeUp) (desk : Desk) : Prop :=
    desk.Counted (· ≤ ·) agenda.entries ∧ desk.Ruled ∧ desk.setup = b.desk.setup
  have step (agenda : Agenda WakeUp) (desk : Desk) (x : Entry WakeUp) (rest : List (Entry WakeUp))
      (he : agenda.entries = x :: rest) (hd : kept agenda desk) :
      kept ((agenda.taken x.due rest).scheduleAll (desk.react x.due x.task).posts) (desk.react x.due x.task).world := by
    obtain ⟨hcounted, hruled, hsetup⟩ := hd
    rw [he] at hcounted
    refine ⟨hcounted.react (agenda.taken x.due rest) rfl, ?_⟩
    obtain heq | ⟨session, found, -, heq⟩ := desk.react_world x.due x.task
    · rw [heq]
      exact ⟨hruled, hsetup⟩
    · rw [heq]
      exact ⟨hruled.perform found .step, hsetup⟩
  obtain ⟨agenda, desk, x, rest, he, ⟨hcounted, hruled, hsetup⟩, hreact, hagenda, hworld⟩ :=
    Agenda.drain_fails (P := kept) step limit ⟨h, ruled, rfl⟩ rfl fails
  rw [he] at hcounted
  rw [hagenda, hworld]
  exact .wakeUp agenda desk x rest hcounted hruled hsetup hreact

private theorem failure_of_reply {run : Run Desk WakeUp ArithmeticError} {reason : ArithmeticError}
    (h : run.reply = .failed reason) : run.failure = some reason := by
  rw [Run.reply] at h
  cases hf : run.failure with
  | none =>
    rw [hf] at h
    cases h
  | some cause =>
    rw [hf] at h
    cases h
    rfl

/-- An event that fails has moved the clock up to a wake-up that broke off. -/
private theorem perform_fails {b : Bench} (h : b.desk.Counted (· ≤ ·) b.agenda.entries) (ruled : b.desk.Ruled) {e : Event}
    {reason : ArithmeticError} (fails : (b.perform e).2 = .failed reason) :
    BrokenOff b.desk.setup reason (b.perform e).1 := by
  cases e with
  | step index => cases hs : b.desk.sessions[index]? <;> simp [perform, hs] at fails
  | run index => cases hs : b.desk.sessions[index]? <;> simp [perform, hs] at fails
  | reset index => cases hs : b.desk.sessions[index]? <;> simp [perform, hs] at fails
  | pause index => simp [perform] at fails
  | setSpeed index speed => simp [perform] at fails
  | replace old text speed scale => simp [perform] at fails
  | view change => simp [perform] at fails
  | runPending limit =>
    rw [reply_runPending] at fails
    exact brokenOff_of_drain h ruled _ limit (failure_of_reply fails)
  | advance ms =>
    rw [reply_advance] at fails
    have hfail := failure_of_reply fails
    -- an advance that fails leaves the clock at the wake-up that broke off, as the drain does
    have hrun := Agenda.advance_of_failure hfail
    rw [hrun] at hfail
    have hnext : (b.perform (.advance ms)).1 = ⟨(b.agenda.advance Desk.react b.budget ms b.desk).world,
        (b.agenda.advance Desk.react b.budget ms b.desk).agenda⟩ := rfl
    rw [hnext, hrun]
    exact brokenOff_of_drain h ruled _ b.budget hfail

/-- A wake-up breaks off only if its session cannot run at its speed, and so not at its least speed either. -/
private theorem react_completes_at_least_speed {desk : Desk} (ruled : desk.Ruled) (now : Int) (wakeUp : WakeUp)
    (hfinite : desk.setup.minimumSpeed.isFinite = true) (hpos : (Quantity.whole 0).lt desk.setup.minimumSpeed = true)
    (hdividing : ∃ v, desk.setup.minimumSpeed.dividing 1000 = .ok v ∧ v.isFinite = true) (reason : ArithmeticError) :
    (desk.react now wakeUp).failure ≠ some reason := by
  intro h
  obtain ⟨session, found, -, -, -, hinterval⟩ := Desk.react_fails h
  obtain ⟨hsetup, hpaced⟩ := ruled _ session found
  obtain ⟨speed, hspeed⟩ := hpaced.act desk.surface .step
  rw [session.playback.act_setup, hsetup] at hspeed
  have htimed := Playback.setSpeed_timed (p := (session.playback.act desk.surface .step).playback)
    (by rw [session.playback.act_setup, hsetup]; exact hfinite)
    (by rw [session.playback.act_setup, hsetup]; exact (Quantity.positive_iff hfinite).mp hpos)
    (by rw [session.playback.act_setup, hsetup]; exact hdividing) speed
  rw [Playback.setSpeed_eq, session.playback.act_setup, hsetup, ← hspeed] at htimed
  obtain ⟨ms, hms, -⟩ := htimed.interval
  have hsame : (session.playback.act desk.surface .step).playback.interval = .ok ms := hms
  rw [hinterval] at hsame
  cases hsame

namespace BrokenOff
variable {setup : Setup} {reason : ArithmeticError} {next : Bench}

private theorem not_at_least_speed (h : BrokenOff setup reason next) (hfinite : setup.minimumSpeed.isFinite = true)
    (hpos : (Quantity.whole 0).lt setup.minimumSpeed = true) :
    ¬ ∃ v, setup.minimumSpeed.dividing 1000 = .ok v ∧ v.isFinite = true := by
  obtain ⟨-, desk, x, -, -, ruled, rfl, fails⟩ := h
  exact fun hdividing => react_completes_at_least_speed ruled x.due x.task hfinite hpos hdividing reason fails

/-- The session whose wake-up has broken off is stranded. -/
private theorem stranded (h : BrokenOff setup reason next) :
    ∃ (i : Nat) (session : Session), next.desk.sessions[i]? = some session ∧ session.playback.mode = .running ∧
      session.playback.interval = .error reason ∧ session.playback.waiting i next.agenda.entries = 0 := by
  obtain ⟨agenda, desk, x, rest, counted, -, -, fails⟩ := h
  obtain ⟨hposts, session, found, hrunning, hinterval, hwaiting⟩ := Desk.Stranded.of_react_fails counted fails
  rw [hposts, Agenda.scheduleAll_nil]
  exact ⟨x.task.session, session, found, hrunning, hinterval, hwaiting⟩

end BrokenOff

/-- An event fails only where a thousand cannot be divided by the least speed. The session whose wake-up broke off then
counts as running, but nothing that waits wakes it, and it is not run again. Whatever happens to the other sessions and
to the clock, and whatever speed it is given, this stays so, unless it is stepped by hand, paused, reset or replaced. -/
theorem failure_strands (setup : Setup) (surface : Surface) (events : List Event) (e : Event) :
    let b := (ofSurface setup surface).after events
    let next := (b.perform e).1
    (setup.minimumSpeed.isFinite = true → (Quantity.whole 0).lt setup.minimumSpeed = true →
      (∃ v, setup.minimumSpeed.dividing 1000 = .ok v ∧ v.isFinite = true) →
        ∀ reason, (b.perform e).2 ≠ .failed reason) ∧
    ∀ reason, (b.perform e).2 = .failed reason →
      ∃ (i : Nat) (session : Session), next.desk.sessions[i]? = some session ∧
        session.playback.mode = .running ∧ session.playback.interval = .error reason ∧
        session.playback.waiting i next.agenda.entries = 0 ∧
        next.perform (.run i) = (next, .nothing) ∧
        ∀ later : List Event, (∀ x ∈ later, x.frees i = false) →
          ∃ same, (next.after later).desk.sessions[i]? = some same ∧ same.playback.mode = .running ∧
            same.playback.machine = session.playback.machine ∧
            same.playback.waiting i (next.after later).agenda.entries = 0 := by
  intro b next
  have broken {reason : ArithmeticError} (fails : (b.perform e).2 = .failed reason) : BrokenOff setup reason next := by
    have hsetup : b.desk.setup = setup :=
      invariant_after (P := fun b => b.desk.setup = setup) (fun _ e h => setup_perform h e)
        (b := ofSurface setup surface) rfl events
    exact hsetup ▸ perform_fails (counted_after setup surface events) (ruled_after setup surface events) fails
  constructor
  · intro hfinite hpos hdividing reason fails
    exact (broken fails).not_at_least_speed hfinite hpos hdividing
  · intro reason fails
    obtain ⟨i, session, found, hrunning, hinterval, hwaiting⟩ := (broken fails).stranded
    refine ⟨i, session, found, hrunning, hinterval, hwaiting, perform_run_running found hrunning, fun later frees => ?_⟩
    exact stranded_after ⟨session, found, hrunning, rfl, hwaiting⟩ frees

/-- The least speed `2^-1040` passes the check of a profile, and a run at that speed is stranded after one of two
commands: running it and moving the clock do nothing any more. -/
theorem stranded_at_tiny_speed :
    ∃ p : Profile, p.validate = .ok () ∧
      let setup := (Settings.ofProfile p).setup false
      let surface := Surface.ofSize (.whole 800) (.whole 600)
      let b := (ofSurface setup surface).after [.replace none "G90\nG90" (some (.whole 0)) 1, .run 0]
      let next := (b.perform (.advance 0)).1
      (b.perform (.advance 0)).2 = .failed .infiniteInteger ∧
        next.desk.sessions.map (fun session => (session.playback.mode, session.playback.remaining)) = [(.running, 1)] ∧
        next.agenda.pending = 0 ∧ next.perform (.run 0) = (next, .nothing) ∧
        (next.perform (.advance 1000)).2 = .calls 0 := by
  let p := Profile.default.set .minSpeed (.float (Exact.nearest false 1 (-1040)))
  have hvalid : p.validate = .ok () := by
    have hpasses : p.validate.toOption.isSome = true := by decide +kernel
    cases h : p.validate with
    | error reason =>
      rw [h] at hpasses
      cases hpasses
    | ok u => rfl
  exact ⟨p, hvalid, by decide +kernel, by decide +kernel, by decide +kernel, by decide +kernel, by decide +kernel⟩

end Bench

end WireCut
