import WireCut.Proofs.Bench.Sound

/-! The end of a run of the clock. A wake-up that is called leaves the agenda, and one that is scheduled again has
executed a command. So the waiting wake-ups and the commands that running sessions have left bound the calls, also
when one command follows the other without a delay. -/
namespace WireCut

namespace Playback

def ahead (p : Playback) : Nat :=
  if p.mode = .running then p.remaining else 0

private theorem ahead_le (p : Playback) : p.ahead ≤ p.remaining := by
  rw [ahead]
  split
  · exact Nat.le_refl _
  · exact Nat.zero_le _

/-- A step that goes on running has one command less ahead, and any other step leaves none. -/
private theorem step_ahead (p : Playback) (s : Surface) (hm : p.mode = .running) :
    (p.act s .step).playback.ahead + (if (p.act s .step).playback.mode = .running then 1 else 0) ≤ p.ahead := by
  have hstep := p.step_remaining s
  rw [ahead, ahead, if_pos hm]
  split
  · rename_i hrunning
    rwa [if_pos hrunning] at hstep
  · exact Nat.zero_le _

/-- A step of a running playback goes on running or finishes. -/
private theorem step_running {p : Playback} (s : Surface) (hm : p.mode = .running) :
    (p.act s .step).playback.mode = .running ∨ (p.act s .step).playback.mode = .finished := by
  rw [act]
  obtain ⟨c, -, -, heq⟩ | ⟨-, heq⟩ := p.step_cases s
  · rw [heq, executeCommand_eq]
    simp only [settle_eq, executed_mode, hm, if_true]
    split
    · exact .inr rfl
    · exact .inl rfl
  · rw [heq]
    exact .inr rfl

end Playback

namespace Desk

def ahead (desk : Desk) : Nat :=
  desk.total Playback.ahead

private theorem ahead_le (desk : Desk) : desk.ahead ≤ desk.remaining := by
  rw [remaining_eq_total]
  exact List.sum_le_sum fun session _ => session.playback.ahead_le

private theorem pays_ahead : Agenda.Pays Desk.react ahead :=
  pays_total Playback.step_ahead

end Desk

namespace Bench

/-- The number of wake-ups that wait or that can be scheduled by those that wait. -/
def reserve (b : Bench) : Nat :=
  b.agenda.pending + b.desk.ahead

private theorem reserve_le_budget (b : Bench) : b.reserve ≤ b.budget :=
  Nat.add_le_add_left b.desk.ahead_le _

/-- A run of the clock that may make as many calls as there are in reserve ends because nothing is allowed any more,
and a larger limit makes no difference to it. -/
private theorem drain_ends {b : Bench} (h : b.desk.Wired b.agenda.entries) (allowed : Int → Bool) {limit : Nat}
    (hle : b.reserve ≤ limit) :
    let run : Run Desk WakeUp ArithmeticError := ⟨b.agenda, b.desk, 0, none⟩
    Agenda.fire Desk.react allowed (Agenda.drain Desk.react allowed limit run) = none ∧
      Agenda.drain Desk.react allowed limit run = Agenda.drain Desk.react allowed b.reserve run := by
  intro run
  have hends := Desk.pays_ahead.exhausts b.reserve run (Nat.le_refl _) (drain_ok h allowed b.reserve)
  have hsame := Agenda.drain_of_le run hle hends
  exact ⟨hsame ▸ hends, hsame⟩

private theorem calls_le (b : Bench) (allowed : Int → Bool) (limit : Nat) :
    (Agenda.drain Desk.react allowed limit ⟨b.agenda, b.desk, 0, none⟩).calls ≤ min limit b.reserve := by
  have hcalls := @Agenda.Pays.calls_le _ _ _ Desk.react allowed _ Desk.pays_ahead limit ⟨b.agenda, b.desk, 0, none⟩
  rwa [Nat.zero_add] at hcalls

/-- The answer of a run of the waiting wake-ups is the number of calls. -/
private theorem runPending_calls {b : Bench} (h : b.desk.Wired b.agenda.entries) (limit : Nat) :
    ∃ n, (b.perform (.runPending limit)).2 = .calls n ∧ n ≤ min limit b.reserve := by
  refine ⟨_, ?_, b.calls_le (fun _ => true) limit⟩
  rw [reply_runPending, Run.reply, show (b.agenda.runPending Desk.react limit b.desk).failure = none from drain_ok h _ limit]
  rfl

/-- The answer of time that moves forward is the number of calls, and any budget that covers the reserve makes the
same of it. -/
private theorem advance_calls {b : Bench} (h : b.desk.Wired b.agenda.entries) (ms : Int) :
    (∃ n, (b.perform (.advance ms)).2 = .calls n ∧ n ≤ b.reserve) ∧
      ∀ budget, b.reserve ≤ budget →
        b.agenda.advance Desk.react budget ms b.desk = b.agenda.advance Desk.react b.budget ms b.desk := by
  refine ⟨⟨_, ?_, Nat.le_trans (b.calls_le (fun due => decide (due ≤ b.agenda.now + ms)) b.budget) (Nat.min_le_right _ _)⟩,
    fun budget hle => ?_⟩
  · rw [reply_advance, Agenda.advance_eq rfl (drain_ok h _ b.budget), Run.reply, drain_ok h]
    rfl
  · rw [Agenda.advance_eq rfl (drain_ok h _ budget), Agenda.advance_eq rfl (drain_ok h _ b.budget)]
    rw [(drain_ends h _ hle).2, (drain_ends h _ b.reserve_le_budget).2]

/-- The clock leaves a running session running, or finishes it. -/
private theorem running_after_clock {b : Bench} {i : Nat} {session : Session} (found : b.desk.sessions[i]? = some session)
    (running : session.playback.mode = .running) {e : Event} (clock : e.isClock = true) :
    ∃ p, (b.perform e).1.desk.sessions[i]? = some { session with playback := p } ∧
      (p.mode = .running ∨ p.mode = .finished) := by
  let P (desk : Desk) : Prop := ∃ p, desk.sessions[i]? = some { session with playback := p } ∧
    (p.mode = .running ∨ p.mode = .finished)
  refine desk_clock (P := P) ?_ b e clock ⟨session.playback, found, .inl running⟩
  rintro desk index woken generation hs ha ⟨p, hp, hm⟩
  rw [show P _ ↔ ∃ p, (desk.perform index woken .step).sessions[i]? = some { session with playback := p } ∧
    (p.mode = .running ∨ p.mode = .finished) from Iff.rfl]
  simp only [Desk.getElem?_perform hs]
  by_cases hi : index = i
  · subst hi
    rw [hp] at hs
    cases hs
    refine ⟨_, if_pos rfl, ?_⟩
    exact Playback.step_running desk.surface (Playback.awaits_iff.mp ha).2
  · exact ⟨p, by rw [if_neg hi, hp], hm⟩

/-- A run of as many waiting wake-ups as there are in reserve leaves none waiting and every running session
finished. -/
private theorem runPending_finishes {b : Bench} (h : b.desk.Wired b.agenda.entries) {limit : Nat} (hle : b.reserve ≤ limit) :
    (b.perform (.runPending limit)).1.agenda.pending = 0 ∧
      ∀ (i : Nat) session, b.desk.sessions[i]? = some session → session.playback.mode = .running →
        ∃ p, (b.perform (.runPending limit)).1.desk.sessions[i]? = some { session with playback := p } ∧
          p.mode = .finished := by
  have hempty : (b.perform (.runPending limit)).1.agenda.entries = [] := by
    obtain hnil | ⟨e, rest, -, hallowed⟩ := Agenda.fire_eq_none (drain_ends h (fun _ => true) hle).1
    · exact hnil
    · cases hallowed
  refine ⟨congrArg List.length hempty, fun i session found running => ?_⟩
  obtain ⟨p, hp, hm⟩ := running_after_clock found running (e := .runPending limit) rfl
  refine ⟨p, hp, hm.resolve_left fun hrunning => ?_⟩
  -- a session that still runs would have a wake-up
  have hsingle := (wired_perform h (.runPending limit)).single i _ hp
  rw [hempty, if_pos hrunning] at hsingle
  cases hsingle

/-- Whatever has happened to any number of sessions, a run of the clock comes to its end, even if no time passes
between two commands: it calls no more wake-ups than wait and than the running sessions have commands left, also when
it is given a larger limit, and it ends because no wake-up is allowed any more. When that many wake-ups may be called,
none is left waiting, and every session that was running has finished. -/
theorem clock_comes_to_end (preset : Preset) (followed : Bool) (surface : Surface) (events : List Event) :
    let b := (ofSurface ((Settings.ofPreset preset).setup followed) surface).after events
    let bound := b.agenda.pending + (b.desk.sessions.map fun session =>
      if session.playback.mode = .running then session.playback.program.size - session.playback.cursor else 0).sum
    (∀ allowed limit, bound ≤ limit →
      Agenda.fire Desk.react allowed (Agenda.drain Desk.react allowed limit ⟨b.agenda, b.desk, 0, none⟩) = none) ∧
    (∀ limit, ∃ n, (b.perform (.runPending limit)).2 = .calls n ∧ n ≤ min limit bound) ∧
    (∀ ms, (∃ n, (b.perform (.advance ms)).2 = .calls n ∧ n ≤ bound) ∧ ∀ budget, bound ≤ budget →
      b.agenda.advance Desk.react budget ms b.desk = b.agenda.advance Desk.react b.budget ms b.desk) ∧
    ∀ limit, bound ≤ limit → (b.perform (.runPending limit)).1.agenda.pending = 0 ∧
      ∀ (i : Nat) session, b.desk.sessions[i]? = some session → session.playback.mode = .running →
        ∃ p, (b.perform (.runPending limit)).1.desk.sessions[i]? = some { session with playback := p } ∧
          p.mode = .finished := by
  intro b bound
  have hwired : b.desk.Wired b.agenda.entries :=
    wired_after (wired_ofSurface _ surface (Settings.minimumSpeed_ofPreset preset followed)) events
  have hbound : bound = b.reserve := rfl
  rw [hbound]
  refine ⟨fun allowed limit hle => (drain_ends hwired allowed hle).1, runPending_calls hwired, advance_calls hwired, ?_⟩
  exact fun limit hle => runPending_finishes hwired hle

/-- Two sessions run at one time, one of them ten thousand commands per second so that no time passes between its
commands, while a wake-up of a run that was broken off still waits. -/
example :
    let b := (ofSurface ⟨.whole 1, 1.5, false⟩ (.ofSize (.whole 800) (.whole 600))).after
      [.replace none "G90\nG91\nG92" (some (.whole 10000)) 1, .replace none "G90\nG91" (some (.whole 5)) 1,
        .run 0, .pause 0, .run 0, .run 1]
    b.reserve = 8 ∧ (b.perform (.advance 0)).2 = .calls 5 ∧ (b.perform (.runPending 8)).2 = .calls 6 := by
  decide +kernel

end Bench

end WireCut
