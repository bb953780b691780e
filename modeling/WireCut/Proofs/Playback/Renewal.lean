import WireCut.Proofs.Playback.Act

/-! Playbacks with a past. A playback with earlier runs behind it, and with other diagnostics, does exactly what it
would do without them: the diagnostics are never read, and the number of runs only tells its wake-ups apart. -/
namespace WireCut

namespace Playback

/-- A playback with a number of earlier runs behind it and with other diagnostics. -/
def aged (p : Playback) (runs : Nat) (log : Option (List Diagnostic)) : Playback :=
  { p with generation := p.generation + runs, log }

variable (p : Playback) (runs : Nat) (log : Option (List Diagnostic))

private theorem finish_aged : (p.aged runs log).finish = p.finish.aged runs log := by
  simp only [finish, aged, Nat.add_right_comm]

private theorem executed_aged (c : Command) :
    (p.aged runs log).executed c =
      (p.executed c).aged runs (log.map fun log => (p.machine.execute c).report.toList ++ log) := by
  have hmachine : (p.aged runs log).machine = p.machine := rfl
  simp only [executed, follow_fst, hmachine]
  cases (p.machine.execute c).report <;> cases log <;> rfl

private theorem settle_aged (ended : Bool) : (p.aged runs log).settle ended = (p.settle ended).aged runs log := by
  rw [settle_eq, settle_eq, finish_aged]
  have hend : (ended || decide ((p.aged runs log).program.size ≤ (p.aged runs log).cursor)) =
      (ended || decide (p.program.size ≤ p.cursor)) := rfl
  rw [hend]
  split <;> rfl

private theorem executeCommand_aged (s : Surface) (c : Command) :
    ∃ log', (p.aged runs log).executeCommand s c =
      ⟨(p.executeCommand s c).playback.aged runs log', (p.executeCommand s c).surface,
        (p.executeCommand s c).marks⟩ := by
  have hmachine : (p.aged runs log).machine = p.machine := rfl
  refine ⟨log.map fun log => (p.machine.execute c).report.toList ++ log, ?_⟩
  rw [executeCommand_eq, executeCommand_eq, executed_aged, settle_aged, follow_snd, follow_snd, hmachine]
  simp [aged]

theorem step_aged (s : Surface) :
    ∃ log', (p.aged runs log).step s =
      (⟨(p.step s).1.playback.aged runs log', (p.step s).1.surface, (p.step s).1.marks⟩, (p.step s).2) := by
  obtain ⟨c, hm, hc, heq⟩ | ⟨hend, heq⟩ := p.step_cases s
  · obtain ⟨log', hlog⟩ := p.executeCommand_aged runs log s c
    have hstep : (p.aged runs log).step s = ((p.aged runs log).executeCommand s c, true) := by
      have hm' : (p.aged runs log).mode ≠ .finished := hm
      have hc' : (p.aged runs log).program[(p.aged runs log).cursor]? = some c := hc
      rw [step, if_neg hm', hc']
    exact ⟨log', by rw [hstep, heq, hlog]⟩
  · refine ⟨log, ?_⟩
    have hstep : (p.aged runs log).step s = (⟨(p.aged runs log).finish, s, []⟩, false) := by
      obtain ⟨c, hm, hc, -⟩ | ⟨-, heq'⟩ := (p.aged runs log).step_cases s
      · obtain hfinished | hsize := hend
        · exact absurd hfinished hm
        · have hlt := (Array.getElem?_eq_some_iff.mp hc).1
          exact absurd hlt (Nat.not_lt.mpr hsize)
      · exact heq'
    rw [hstep, heq, finish_aged]

theorem run_aged : (p.aged runs log).run = (p.run.1.aged runs log, p.run.2) := by
  have hexhausted : (p.aged runs log).exhausted = p.exhausted := rfl
  unfold run
  rw [hexhausted, finish_aged]
  by_cases hm : p.mode = .running
  · rw [if_pos hm, if_pos (show (p.aged runs log).mode = .running from hm)]
  · rw [if_neg hm, if_neg (show (p.aged runs log).mode ≠ .running from hm)]
    cases p.exhausted with
    | true => rfl
    | false => simp [aged, Nat.add_right_comm]

/-- Whatever is done with a playback, a past makes no difference to the surface and the marks, and stays behind it. -/
theorem act_aged (s : Surface) (a : Act) :
    ∃ log', (p.aged runs log).act s a =
      ⟨(p.act s a).playback.aged runs log', (p.act s a).surface, (p.act s a).marks⟩ := by
  cases a with
  | step =>
    obtain ⟨log', hstep⟩ := p.step_aged runs log s
    exact ⟨log', by rw [act, act, hstep]⟩
  | run => exact ⟨log, by rw [act, act, run_aged]⟩
  | pause =>
    refine ⟨log, ?_⟩
    simp only [act, pause, abandon, aged, Nat.add_right_comm]
    rfl
  | reset =>
    refine ⟨log, ?_⟩
    simp only [act, reset, aged, Nat.add_right_comm]
    rfl
  | setSpeed speed => exact ⟨log, by rw [act, act, setSpeed_eq, setSpeed_eq]; rfl⟩

variable {p runs log}

/-- A wake-up of an earlier run is not awaited any more, and one of a later run is awaited if it was without the
past. -/
theorem awaits_aged {generation : Nat} (begun : 0 < p.generation) :
    (p.aged runs log).awaits generation = (decide (runs < generation) && p.awaits (generation - runs)) := by
  have hsame : generation = p.generation + runs ↔ runs < generation ∧ generation - runs = p.generation := by omega
  rw [Bool.eq_iff_iff, Bool.and_eq_true, awaits_iff, awaits_iff, decide_eq_true_eq, ← and_assoc, ← hsame]
  rfl

end Playback

end WireCut
