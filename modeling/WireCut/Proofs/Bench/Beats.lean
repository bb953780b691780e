import WireCut.Proofs.Agenda.History
import WireCut.Proofs.Bench.Beside
import WireCut.Proofs.Playback.Rhythm
import WireCut.Proofs.Playback.Stage

/-! The commands that a session executes when it is woken, each with its time. Whatever other wake-ups are called, the
commands of a running session come at the rhythm of its speed, and its next wake-up is in the agenda. -/
namespace WireCut

namespace Desk

def beat? (desk : Desk) (index : Nat) (f : Firing WakeUp) : Option Beat :=
  (desk.sessions[index]?.filter fun session => f.entry.task.session = index &&
    session.playback.awaits f.entry.task.generation && (session.playback.step desk.surface).2).map fun session =>
      ⟨f.clock, session.playback.cursor, session.playback.speed⟩

def beats (index : Nat) (desk : Desk) : List (Firing WakeUp) → List Beat
  | [] => []
  | f :: fs => (desk.beat? index f).toList ++ beats index (desk.react f.clock f.entry.task).world fs

end Desk

namespace Bench

def firings (b : Bench) : Event → List (Firing WakeUp)
  | .advance ms =>
    Agenda.firings Desk.react (fun due => decide (due ≤ b.agenda.now + ms)) b.budget ⟨b.agenda, b.desk, 0, none⟩
  | .runPending limit => Agenda.firings Desk.react (fun _ => true) limit ⟨b.agenda, b.desk, 0, none⟩
  | _ => []

def beats (index : Nat) (b : Bench) : List Event → List Beat
  | [] => []
  | e :: events => b.desk.beats index (b.firings e) ++ beats index (b.perform e).1 events

end Bench

def Session.halt (session : Session) : Nat :=
  Program.reach (Program.commands session.text)

namespace Desk

/-- A running session whose next command is due at a time, or a session that has come to its end. -/
structure OnTime (desk : Desk) (agenda : Agenda WakeUp) (index : Nat) (session : Session) (next : Int) : Prop where
  wired : desk.Wired agenda.entries
  sorted : Agenda.Sorted agenda.entries
  found : desk.sessions[index]? = some session
  program : session.playback.program = (Program.commands session.text).toArray
  stage : session.playback.mode = .running ∧ session.playback.cursor < session.halt ∨
    session.playback.mode = .finished ∧ session.playback.cursor = session.halt
  due : ∀ e ∈ agenda.entries, e.task.session = index → session.playback.awaits e.task.generation = true → e.due = next

namespace OnTime
variable {desk : Desk} {agenda : Agenda WakeUp} {index : Nat} {session : Session} {next : Int}
variable {x : Entry WakeUp} {rest : List (Entry WakeUp)}

private theorem fires (h : desk.OnTime agenda index session next) (he : agenda.entries = x :: rest) :
    (desk.react x.due x.task).world.Wired ((agenda.taken x.due rest).scheduleAll (desk.react x.due x.task).posts).entries ∧
      Agenda.Sorted ((agenda.taken x.due rest).scheduleAll (desk.react x.due x.task).posts).entries ∧
      (desk.react x.due x.task).failure = none := by
  have hwired := h.wired
  have hsorted := h.sorted
  rw [he] at hwired hsorted
  obtain ⟨hnext, hok⟩ := hwired.react (agenda.taken x.due rest) rfl
  have hrest : Agenda.Sorted (agenda.taken x.due rest).entries := (List.pairwise_cons.mp hsorted).2
  exact ⟨hnext, Agenda.sorted_scheduleAll hrest _, hok⟩

theorem cursor_lt (h : desk.OnTime agenda index session next) (running : session.playback.mode = .running) :
    session.playback.cursor < session.halt := by
  obtain ⟨-, hlt⟩ | ⟨hm, -⟩ := h.stage
  · exact hlt
  · rw [running] at hm
    cases hm

/-- A wake-up that the session does not await leaves it where it is. -/
private theorem react_other (h : desk.OnTime agenda index session next) (he : agenda.entries = x :: rest)
    (other : x.task.session = index → session.playback.awaits x.task.generation = false) :
    (desk.react x.due x.task).world.OnTime
      ((agenda.taken x.due rest).scheduleAll (desk.react x.due x.task).posts) index session next := by
  obtain ⟨hwired, hsorted, -⟩ := h.fires he
  have hfound : (desk.react x.due x.task).world.sessions[index]? = some session := by
    obtain heq | ⟨woken, hwoken, hawaits, heq⟩ := desk.react_world x.due x.task
    · rw [heq]
      exact h.found
    · have hne : x.task.session ≠ index := by
        intro hsame
        rw [hsame, h.found] at hwoken
        cases hwoken
        rw [other hsame] at hawaits
        cases hawaits
      rw [heq, getElem?_perform hwoken, if_neg hne]
      exact h.found
  refine ⟨hwired, hsorted, hfound, h.program, h.stage, fun e hmem hi hawaits => ?_⟩
  obtain hold | ⟨post, hpost, htask⟩ := Agenda.mem_scheduleAll hmem
  · exact h.due e (by rw [he]; exact List.mem_cons_of_mem x hold) hi hawaits
  · -- what is scheduled is the wake-up that was called, which the session does not await
    rw [htask, desk.posts_task x.due x.task hpost] at hi hawaits
    rw [other hi] at hawaits
    cases hawaits

/-- A wake-up that the session awaits executes the next command when it is due. The one after it is due after an
interval. -/
private theorem react_awaited (h : desk.OnTime agenda index session next) (he : agenda.entries = x :: rest)
    (hi : x.task.session = index) (hawaits : session.playback.awaits x.task.generation = true) :
    x.due = next ∧ (session.playback.step desk.surface).2 = true ∧
      ∃ p ms, session.playback.speed.Interval ms ∧ p.speed = session.playback.speed ∧ p.setup = session.playback.setup ∧
        p.cursor = session.playback.cursor + 1 ∧ (desk.react x.due x.task).world.OnTime
          ((agenda.taken x.due rest).scheduleAll (desk.react x.due x.task).posts) index
          { session with playback := p } (next + ms) := by
  subst hi
  obtain ⟨hwired, hsorted, -⟩ := h.fires he
  have hdue := h.due x (by rw [he]; exact List.mem_cons_self) rfl hawaits
  have hrunning := (Playback.awaits_iff.mp hawaits).2
  obtain ⟨hexecuted, hcursor, hmode, hgeneration⟩ :=
    session.playback.step_within_reach desk.surface h.program (by rw [hrunning]; exact nofun) (h.cursor_lt hrunning)
  rw [← Session.halt] at hmode hgeneration
  obtain ⟨ms, hms⟩ := h.wired.interval_ok h.found
  have hinterval : session.playback.speed.Interval ms := Playback.interval_eq_ok.mp hms
  obtain ⟨hworld, hposts⟩ := react_of_awaits x.due h.found hawaits
  have hspeed := session.playback.step_speed desk.surface
  have hsetup := session.playback.act_setup desk.surface .step
  have hprogram := session.playback.act_program desk.surface .step
  rw [perform] at hworld
  rw [Playback.act] at hworld hposts hspeed hsetup hprogram
  generalize (session.playback.step desk.surface).1 = played at *
  refine ⟨hdue, hexecuted, played.playback, ms, hinterval, hspeed, hsetup, hcursor, hwired, hsorted, ?_,
    hprogram.trans h.program, ?_, ?_⟩
  · rw [hworld]
    exact List.getElem?_set_self (List.getElem?_eq_some_iff.mp h.found).1
  · rw [hmode, hcursor, if_pos hrunning]
    by_cases hlast : session.playback.cursor + 1 = session.halt
    · exact .inr ⟨if_pos hlast, hlast⟩
    · exact .inl ⟨if_neg hlast, Nat.lt_of_le_of_ne (h.cursor_lt hrunning) hlast⟩
  · intro e hmem hsession hlive
    obtain ⟨hsame, hm⟩ := Playback.awaits_iff.mp hlive
    have hmore : session.playback.cursor + 1 ≠ session.halt := by
      intro hlast
      rw [hmode, if_pos hlast] at hm
      cases hm
    have hnext : played.playback.interval = .ok ms := by rwa [Playback.interval_eq_ok, hspeed]
    rw [((hposts _ rfl).2 hm ms hnext).1, Agenda.scheduleAll_singleton, Agenda.entries_schedule] at hmem
    obtain rfl | hold := Agenda.mem_insert.mp hmem
    · exact congrArg (· + ms) hdue
    · have hdead := (he ▸ h.wired).alone h.found hawaits e hold hsession
      rw [hsame, hgeneration hmore, Playback.awaits, hrunning] at hdead
      simp at hdead

/-- A wake-up that is called is a command of the session at its time, or nothing for the session. -/
private theorem react (h : desk.OnTime agenda index session next) (he : agenda.entries = x :: rest)
    (posted : List (Entry WakeUp)) :
    ∃ p last, (desk.react x.due x.task).world.OnTime
        ((agenda.taken x.due rest).scheduleAll (desk.react x.due x.task).posts) index
        { session with playback := p } last ∧
      p.setup = session.playback.setup ∧ p.speed = session.playback.speed ∧
      Rhythm next session.playback.cursor (desk.beat? index ⟨x, x.due, posted⟩).toList last p.cursor ∧
      ∀ beat ∈ desk.beat? index ⟨x, x.due, posted⟩, beat.time = x.due ∧ beat.speed = session.playback.speed := by
  by_cases hlive : x.task.session = index ∧ session.playback.awaits x.task.generation = true
  · obtain ⟨hi, hawaits⟩ := hlive
    obtain ⟨hdue, hexecuted, p, ms, hinterval, hspeed, hsetup, hcursor, hnext⟩ := h.react_awaited he hi hawaits
    have hbeat : desk.beat? index ⟨x, x.due, posted⟩ =
        some ⟨x.due, session.playback.cursor, session.playback.speed⟩ := by
      simp [beat?, h.found, Option.filter, hi, hawaits, hexecuted]
    refine ⟨p, next + ms, hnext, hsetup, hspeed, ?_, ?_⟩
    · rw [hbeat, hcursor, hdue]
      exact .beat hinterval .rest
    · rw [hbeat]
      rintro beat hbeat
      cases hbeat
      exact ⟨rfl, rfl⟩
  · have hother (hi : x.task.session = index) : session.playback.awaits x.task.generation = false :=
      Bool.eq_false_iff.mpr fun hawaits => hlive ⟨hi, hawaits⟩
    have hbeat : desk.beat? index ⟨x, x.due, posted⟩ = none := by
      by_cases hi : x.task.session = index
      · simp [beat?, h.found, Option.filter, hother hi]
      · simp [beat?, h.found, Option.filter, hi]
    refine ⟨session.playback, next, h.react_other he hother, rfl, rfl, ?_, ?_⟩
    · rw [hbeat]
      exact .rest
    · rw [hbeat]
      exact nofun

/-- However many wake-ups are called, the session executes its commands at the rhythm of its speed. -/
theorem drain {run : Run Desk WakeUp ArithmeticError} (h : run.world.OnTime run.agenda index session next)
    (allowed : Int → Bool) (limit : Nat) :
    let beats := run.world.beats index (Agenda.firings Desk.react allowed limit run)
    let out := Agenda.drain Desk.react allowed limit run
    ∃ p last, out.world.OnTime out.agenda index { session with playback := p } last ∧
      p.setup = session.playback.setup ∧ p.speed = session.playback.speed ∧
      Rhythm next session.playback.cursor beats last p.cursor ∧
      ∀ beat ∈ beats, allowed beat.time = true ∧ beat.speed = session.playback.speed := by
  induction limit generalizing run session next with
  | zero => exact ⟨session.playback, next, h, rfl, rfl, .rest, List.forall_mem_nil _⟩
  | succ limit ih =>
    cases hf : Agenda.fire Desk.react allowed run with
    | none =>
      have hnone : Agenda.firings Desk.react allowed (limit + 1) run = [] := by
        rw [Agenda.firings, hf]
        cases run.agenda.entries <;> rfl
      rw [hnone, Agenda.drain_of_fire_eq_none _ hf]
      exact ⟨session.playback, next, h, rfl, rfl, .rest, List.forall_mem_nil _⟩
    | some fired =>
      obtain ⟨e, rest, he, hallowed, hagenda, hworld, hfailure, -⟩ := Agenda.fire_eq_some hf
      have hok : fired.failure = none := hfailure.trans (h.fires he).2.2
      have hclock : fired.agenda.now = e.due := by
        rw [hagenda]
        exact Agenda.now_scheduleAll _ _
      generalize hposted :
        (run.agenda.taken e.due rest).entriesOf (Desk.react run.world e.due e.task).posts = posted
      have hfirings : Agenda.firings Desk.react allowed (limit + 1) run =
          ⟨e, e.due, posted⟩ :: Agenda.firings Desk.react allowed limit fired := by
        rw [Agenda.firings, he, hf]
        simp [hok, hclock, hposted]
      have hdrain : Agenda.drain Desk.react allowed (limit + 1) run = Agenda.drain Desk.react allowed limit fired := by
        rw [Agenda.drain, hf]
        simp [hok]
      obtain ⟨p, due, hnext, hsetup, hspeed, hfirst, hbeat⟩ := h.react he posted
      rw [← hagenda, ← hworld] at hnext
      obtain ⟨q, last, hlast, hsetup', hspeed', hlater, hbeats⟩ := ih hnext
      dsimp only at hsetup' hspeed' hlater hbeats
      rw [hfirings, hdrain, beats, ← hworld]
      refine ⟨q, last, hlast, hsetup'.trans hsetup, hspeed'.trans hspeed, hfirst.append hlater, fun beat hmem => ?_⟩
      obtain hmem | hmem := List.mem_append.mp hmem
      · obtain ⟨htime, hsame⟩ := hbeat beat (Option.mem_toList.mp hmem)
        exact ⟨htime ▸ hallowed, hsame⟩
      · rw [← hspeed]
        exact hbeats beat hmem

/-- A session that runs has its next wake-up in the agenda. -/
theorem exists_waiting (h : desk.OnTime agenda index session next) (running : session.playback.mode = .running) :
    ∃ e ∈ agenda.entries, e.due = next := by
  have hsingle := h.wired.single index session h.found
  rw [if_pos running] at hsingle
  obtain ⟨e, he, hlive⟩ := List.countP_pos_iff.mp (Nat.lt_of_lt_of_eq Nat.zero_lt_one hsingle.symm)
  rw [Bool.and_eq_true, decide_eq_true_eq] at hlive
  exact ⟨e, he, h.due e he hlive.1 hlive.2⟩

end OnTime

end Desk

end WireCut
