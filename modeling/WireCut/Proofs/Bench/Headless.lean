import WireCut.CommandLine.Report
import WireCut.Proofs.Bench.Reports
import WireCut.Proofs.Playback.Interval
import WireCut.Proofs.Playback.Stage

/-! A run without a window beside single steps. A run of all waiting wake-ups takes a program as far as its limit
allows, and single steps take it to its end. -/
namespace WireCut

namespace Desk

/-- Firing the only wake-up of a session that awaits it is one step of that session, and the wake-up comes again for
as long as the session runs. -/
private theorem fire_alone {text : String} {run : Run Desk WakeUp ArithmeticError} {p : Playback} {e : Entry WakeUp}
    (hs : run.world.sessions = [⟨text, p⟩]) (he : run.agenda.entries = [e]) (hsession : e.task.session = 0)
    (ha : p.awaits e.task.generation = true) (hpaced : p.Paced) (hmin : p.setup.minimumSpeed = .whole 1) :
    ∃ next, Agenda.fire react (fun _ => true) run = some next ∧ next.failure = none ∧
      next.world.sessions = [⟨text, (p.act run.world.surface .step).playback⟩] ∧
      if (p.act run.world.surface .step).playback.mode = .running then
        ∃ again, next.agenda.entries = [again] ∧ again.task = e.task
      else next.agenda.entries = [] := by
  have hfound : run.world.sessions[e.task.session]? = some ⟨text, p⟩ := by
    rw [hsession, hs]
    rfl
  obtain ⟨hworld, hposts⟩ := react_of_awaits e.due hfound ha
  obtain ⟨hstopped, hrunning⟩ := hposts _ rfl
  obtain ⟨next, hfire, hagenda, hreact, hfailure⟩ := Agenda.fire_of_allowed react (fun _ => true) he rfl
  have hnext : next.world.sessions = [⟨text, (p.act run.world.surface .step).playback⟩] := by
    rw [hreact, hworld, sessions_perform, hs, hsession]
    rfl
  by_cases hm : (p.act run.world.surface .step).playback.mode = .running
  · have hleast : (p.act run.world.surface .step).playback.setup.minimumSpeed = .whole 1 := by
      rw [Playback.act_setup, hmin]
    obtain ⟨delay, hdelay⟩ := (hpaced.act run.world.surface .step).interval_ok hleast
    obtain ⟨hpost, hnone⟩ := hrunning hm delay hdelay
    refine ⟨next, hfire, hfailure.trans hnone, hnext, ?_⟩
    rw [if_pos hm, hagenda, hpost]
    exact ⟨_, rfl, rfl⟩
  · obtain ⟨hpost, hnone⟩ := hstopped hm
    refine ⟨next, hfire, hfailure.trans hnone, hnext, ?_⟩
    rw [if_neg hm, hagenda, hpost]
    rfl

/-- A running session alone with its wake-up goes on for as many commands as there are calls, and no further than
its program reaches. -/
private theorem drain_within_reach {cs : List Command} {text : String} (limit : Nat)
    (run : Run Desk WakeUp ArithmeticError) (p : Playback) (e : Entry WakeUp)
    (hs : run.world.sessions = [⟨text, p⟩]) (he : run.agenda.entries = [e]) (hsession : e.task.session = 0)
    (ha : p.awaits e.task.generation = true) (hprogram : p.program = cs.toArray) (hpaced : p.Paced)
    (hmin : p.setup.minimumSpeed = .whole 1) (h : p.cursor < Program.reach cs) :
    let out := Agenda.drain react (fun _ => true) limit run
    ∃ q, out.world.sessions = [⟨text, q⟩] ∧
      if Program.reach cs ≤ p.cursor + limit then
        q.mode = .finished ∧ q.cursor = Program.reach cs ∧ out.agenda.entries = []
      else q.mode = .running ∧ q.cursor = p.cursor + limit ∧ out.agenda.entries.length = 1 := by
  induction limit generalizing run p e with
  | zero =>
    refine ⟨p, hs, ?_⟩
    rw [if_neg (by omega)]
    exact ⟨(Playback.awaits_iff.mp ha).2, rfl, congrArg List.length he⟩
  | succ limit ih =>
    obtain ⟨hg, hm⟩ := Playback.awaits_iff.mp ha
    obtain ⟨-, hcursor, hmode, hgeneration⟩ := p.step_within_reach run.world.surface hprogram (by rw [hm]; decide) h
    obtain ⟨next, hfire, hfailure, hnext, hentries⟩ := fire_alone hs he hsession ha hpaced hmin
    simp only [Agenda.drain, hfire, hfailure]
    by_cases hlast : p.cursor + 1 = Program.reach cs
    · -- the last command: nothing is scheduled any more
      rw [if_pos hlast] at hmode
      rw [Playback.act, hmode, if_neg (by decide)] at hentries
      rw [Agenda.drain_of_empty react _ limit hentries]
      refine ⟨_, hnext, ?_⟩
      rw [if_pos (by omega)]
      exact ⟨hmode, hcursor.trans hlast, hentries⟩
    · rw [if_neg hlast, if_pos hm] at hmode
      rw [Playback.act, hmode, if_pos rfl] at hentries
      obtain ⟨again, hagain, htask⟩ := hentries
      have hawaits : (p.act run.world.surface .step).playback.awaits again.task.generation = true := by
        rw [htask]
        exact Playback.awaits_iff.mpr ⟨hg.trans (hgeneration hlast).symm, hmode⟩
      obtain ⟨q, hq, hout⟩ := ih next (p.act run.world.surface .step).playback again hnext hagain
        (by rw [htask, hsession]) hawaits ((p.act_program run.world.surface .step).trans hprogram)
        (hpaced.act run.world.surface .step) (by rw [Playback.act_setup, hmin]) (by rw [Playback.act, hcursor]; omega)
      refine ⟨q, hq, ?_⟩
      rw [Playback.act, hcursor, show p.cursor + 1 + limit = p.cursor + (limit + 1) by omega] at hout
      exact hout

end Desk

namespace Bench

section
variable (setup : Setup) (surface : Surface) (text : String) (speed : Option Quantity) (scale : Float)

/-- A run of at most `limit` wake-ups finishes a program that it can reach the end of, and breaks off in any other
one. -/
private theorem run_progress (hmin : setup.minimumSpeed = .whole 1) (limit : Nat) :
    let b := (start setup surface text speed scale).after [.run 0, .runPending limit]
    ∃ p, b.desk.sessions = [⟨text, p⟩] ∧
      if Program.reach (Program.commands text) ≤ limit then
        p.mode = .finished ∧ p.cursor = Program.reach (Program.commands text) ∧ b.agenda.entries = []
      else p.mode = .running ∧ p.cursor = limit ∧ b.agenda.entries.length = 1 := by
  intro b
  have hb : b = ((start setup surface text speed scale).perform (.run 0)).1.after [.runPending limit] := rfl
  have hdesk := start_desk setup surface text speed scale
  have hagenda : (start setup surface text speed scale).agenda = .empty := rfl
  generalize start setup surface text speed scale = first at hb hdesk hagenda
  have hfound : first.desk.sessions[0]? = some ⟨text, .fresh setup text speed scale⟩ := by
    rw [hdesk]
    rfl
  have hsessions : first.desk.sessions = [⟨text, .fresh setup text speed scale⟩] := by rw [hdesk]
  rw [hb, after_cons, after_nil, perform_runPending]
  cases hcs : Program.commands text with
  | nil =>
    -- there is nothing to run
    have hrun : (Playback.fresh setup text speed scale).run = ((Playback.fresh setup text speed scale).finish, false) := by
      simp [Playback.run, Playback.exhausted, Playback.fresh, hcs]
    simp only [perform, hfound, hrun, hagenda]
    rw [Agenda.runPending, Agenda.drain_of_empty _ _ limit rfl]
    refine ⟨(Playback.fresh setup text speed scale).finish, ?_, ?_⟩
    · simp [Desk.update, hsessions]
    · rw [Program.reach, if_pos (Nat.zero_le limit)]
      exact ⟨rfl, rfl, rfl⟩
  | cons c cs =>
    let begun : Playback := { Playback.fresh setup text speed scale with mode := .running, generation := 2 }
    have hrun : (Playback.fresh setup text speed scale).run = (begun, true) := by
      simp [Playback.run, Playback.exhausted, Playback.fresh, Playback.cursor, Machine.powerOn, hcs, begun]
    have hbegun : (first.desk.update 0 fun _ => begun).sessions = [⟨text, begun⟩] := by
      simp [Desk.update, hsessions]
    have hprogram : begun.program = (c :: cs).toArray := by
      rw [← hcs]
      rfl
    simp only [perform, hfound, hrun, hagenda]
    obtain ⟨p, hp, hout⟩ := Desk.drain_within_reach limit
      ⟨Agenda.empty.schedule 0 ⟨0, begun.generation⟩, first.desk.update 0 fun _ => begun, 0, none⟩ begun ⟨0, 0, 0, 2⟩
      hbegun rfl rfl rfl hprogram ⟨speed, rfl⟩ hmin (Program.reach_pos (List.cons_ne_nil c cs))
    refine ⟨p, hp, ?_⟩
    rw [show begun.cursor = 0 from rfl, Nat.zero_add] at hout
    exact hout

/-- Single steps execute one command after another until the program has ended. -/
private theorem step_progress (k : Nat) (hk : k ≤ Program.reach (Program.commands text)) :
    let b := (start setup surface text speed scale).after (List.replicate k (.step 0))
    ∃ p, b.desk.sessions = [⟨text, p⟩] ∧ p.cursor = k ∧ p.program = (Program.commands text).toArray ∧
      (p.mode = .finished ↔ 0 < k ∧ k = Program.reach (Program.commands text)) := by
  induction k with
  | zero =>
    refine ⟨.fresh setup text speed scale, ?_, rfl, rfl, by rintro ⟨⟩, fun h => absurd h.1 (Nat.lt_irrefl 0)⟩
    rw [List.replicate_zero, after_nil, start_desk]
  | succ k ih =>
    obtain ⟨p, hp, hcursor, hprogram, hmode⟩ := ih (by omega)
    rw [List.replicate_succ', after_append]
    generalize (start setup surface text speed scale).after (List.replicate k (.step 0)) = b at hp ⊢
    have hm : p.mode ≠ .finished := fun h => by have := hmode.mp h; omega
    obtain ⟨-, hnext, hlast, -⟩ := p.step_within_reach b.desk.surface hprogram hm (by omega)
    refine ⟨(p.step b.desk.surface).1.playback, ?_, by rw [hnext, hcursor], ?_, ?_⟩
    · exact (step_alone hp).2
    · exact (p.act_program b.desk.surface .step).trans hprogram
    · rw [hlast, hcursor]
      split
      · rename_i hend
        exact ⟨fun _ => ⟨by omega, hend⟩, fun _ => rfl⟩
      · rename_i hend
        constructor
        · intro h
          split at h <;> cases h
        · exact fun h => absurd h.2 hend

/-- A step tells whether the program still had a command, and one step more than those has it finished. -/
theorem step_replies (k : Nat) (hk : k ≤ Program.reach (Program.commands text)) :
    (((start setup surface text speed scale).after (List.replicate k (.step 0))).perform (.step 0)).2 =
      .executed (decide (k < Program.reach (Program.commands text))) ∧
    (k = Program.reach (Program.commands text) →
      ∃ p, ((start setup surface text speed scale).after (List.replicate (k + 1) (.step 0))).desk.sessions =
        [⟨text, p⟩] ∧ p.mode = .finished ∧ p.cursor = k) := by
  obtain ⟨p, hp, hcursor, hprogram, hmode⟩ := step_progress setup surface text speed scale k hk
  rw [List.replicate_succ', after_append]
  generalize (start setup surface text speed scale).after (List.replicate k (.step 0)) = b at hp ⊢
  obtain ⟨hreply, hsessions⟩ := step_alone hp
  rw [hreply, after_cons, after_nil]
  by_cases hlt : k < Program.reach (Program.commands text)
  · have hm : p.mode ≠ .finished := fun h => by have := hmode.mp h; omega
    obtain ⟨hexecuted, -⟩ := p.step_within_reach b.desk.surface hprogram hm (by omega)
    rw [hexecuted, decide_eq_true hlt]
    exact ⟨rfl, fun hend => by omega⟩
  · have hend : k = Program.reach (Program.commands text) := by omega
    have hfinish : p.step b.desk.surface = (⟨p.finish, b.desk.surface, []⟩, false) := by
      by_cases hzero : k = 0
      · have hnil : Program.commands text = [] := Classical.byContradiction fun hne => by
          have := Program.reach_pos hne
          omega
        have hm : p.mode ≠ .finished := fun h => by have := hmode.mp h; omega
        rw [Playback.step, if_neg hm, hprogram, hnil]
        rfl
      · rw [Playback.step, if_pos (hmode.mpr ⟨by omega, hend⟩)]
    rw [hfinish] at hsessions ⊢
    rw [decide_eq_false hlt]
    exact ⟨rfl, fun _ => ⟨_, hsessions, rfl, hcursor⟩⟩

end

/-- A run without a window finishes a program, with the place, the machine, the strokes and the diagnostics of
single steps to its end, exactly when the program ends within the limit of wake-ups. A longer program is broken off
at the limit, with its next wake-up still waiting. -/
theorem headless_run (preset : Preset) (text : String) (speed : Option Quantity) (scale : Float) :
    let settings := { Settings.ofPreset preset with speed, scale }
    let reach := Program.reach (Program.commands text)
    let fresh := start (settings.setup false) settings.surface text speed scale
    let headless := (Report.bench settings text).1
    let stepped := fresh.after (List.replicate (reach + 1) (.step 0))
    (∀ k ≤ reach, ((fresh.after (List.replicate k (.step 0))).perform (.step 0)).2 = .executed (decide (k < reach))) ∧
    ∃ p q, headless.desk.sessions = [⟨text, p⟩] ∧ stepped.desk.sessions = [⟨text, q⟩] ∧
      q.mode = .finished ∧ q.cursor = reach ∧
      if reach ≤ Report.wakeUpLimit then
        p.mode = .finished ∧ headless.agenda.pending = 0 ∧ p.cursor = q.cursor ∧ p.machine = q.machine ∧
          headless.desk.surface.strokes = stepped.desk.surface.strokes ∧ p.diagnostics = q.diagnostics
      else p.mode = .running ∧ headless.agenda.pending = 1 ∧ p.cursor = Report.wakeUpLimit := by
  intro settings reach fresh headless stepped
  have hmin : (settings.setup false).minimumSpeed = .whole 1 := by
    cases preset <;> rfl
  refine ⟨fun k hk => (step_replies _ settings.surface text speed scale k hk).1, ?_⟩
  have hstep : ∀ e ∈ List.replicate (reach + 1) (Event.step 0), e.opens = false ∧ e.resets = false := by
    intro e he
    rw [List.eq_of_mem_replicate he]
    exact ⟨rfl, rfl⟩
  obtain ⟨p, hp, hplaced, -, hlogged⟩ := logged_after (settings.setup false) settings.surface text speed scale
    [.run 0, .runPending Report.wakeUpLimit] (by decide)
  obtain ⟨q, hq, hqplaced, -, hqlogged⟩ := logged_after (settings.setup false) settings.surface text speed scale
    (List.replicate (reach + 1) (.step 0)) fun e he => (hstep e he).1
  obtain ⟨p', hp', hrun⟩ := run_progress (settings.setup false) settings.surface text speed scale hmin Report.wakeUpLimit
  obtain ⟨q', hq', hfinished, hend⟩ := (step_replies (settings.setup false) settings.surface text speed scale reach
    (Nat.le_refl _)).2 rfl
  obtain rfl := playback_unique hp hp'
  obtain rfl := playback_unique hq hq'
  refine ⟨p, q, hp, hq, hfinished, hend, ?_⟩
  by_cases hlimit : reach ≤ Report.wakeUpLimit
  · rw [if_pos hlimit] at hrun ⊢
    obtain ⟨hm, hcursor, hempty⟩ := hrun
    have hsame : p.cursor = q.cursor := hcursor.trans hend.symm
    obtain ⟨hmachine, hstrokes⟩ := hplaced.eq_of_cursor hqplaced hsame
    have hlog : p.log = q.log := by
      rw [hlogged (by decide), hqlogged fun e he => (hstep e he).2, hsame]
    exact ⟨hm, congrArg List.length hempty, hsame, hmachine, hstrokes, by rw [Playback.diagnostics, hlog]; rfl⟩
  · rw [if_neg hlimit] at hrun ⊢
    obtain ⟨hm, hcursor, hwaiting⟩ := hrun
    exact ⟨hm, hwaiting, hcursor⟩

/-- A program that only repeats one mode is broken off if it has more lines than there are wake-ups. -/
private theorem repeated_cut_off (n : Nat) (hn : Report.wakeUpLimit < n) :
    let text := Program.repeated ['G', '9', '0'] n
    let headless := (Report.bench (Settings.ofPreset .default) text).1
    (Program.commands text).length = n ∧ headless.agenda.pending = 1 ∧
      ∃ p, headless.desk.sessions = [⟨text, p⟩] ∧ p.mode = .running ∧ p.cursor = Report.wakeUpLimit := by
  intro text headless
  have hline (k : Nat) : ∃ c, Program.commandOf ['G', '9', '0'] k = some c ∧ c.ends = false := ⟨_, rfl, rfl⟩
  obtain ⟨hlength, hreach⟩ := Program.reach_repeated (by decide) hline n
  obtain ⟨p, hp, hrun⟩ := run_progress ((Settings.ofPreset .default).setup false) (Settings.ofPreset .default).surface
    text (Settings.ofPreset .default).speed (Settings.ofPreset .default).scale rfl Report.wakeUpLimit
  rw [hreach, if_neg (Nat.not_le.mpr hn)] at hrun
  obtain ⟨hm, hcursor, hwaiting⟩ := hrun
  exact ⟨hlength, hwaiting, p, hp, hm, hcursor⟩

/-- A program of one line more than the limit is not run to its end. -/
theorem headless_run_cut_off :
    let text := Program.repeated ['G', '9', '0'] 100001
    let headless := (Report.bench (Settings.ofPreset .default) text).1
    (Program.commands text).length = 100001 ∧ headless.agenda.pending = 1 ∧
      ∃ p, headless.desk.sessions = [⟨text, p⟩] ∧ p.mode = .running ∧ p.cursor = 100000 :=
  repeated_cut_off 100001 (by decide)

end Bench

end WireCut
