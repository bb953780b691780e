import WireCut.Proofs.Playback.Act
import WireCut.Proofs.Program.Reach

/-! The stage of a playback. Its mode goes with its place: a playback is finished exactly at the end of the reach of
its program, idle at the start, and stepping, running or paused before the end. -/
namespace WireCut

/-- Whether a playback can be in a mode at a place of a program of a given reach. -/
def Mode.fits (reach cursor : Nat) : Mode → Prop
  | .idle => cursor = 0
  | .stepping => 0 < cursor ∧ cursor < reach
  | .running => cursor < reach
  | .paused => cursor < reach
  | .finished => cursor = reach

namespace Mode.fits
variable {reach cursor : Nat} {m : Mode}

theorem cursor_le (h : m.fits reach cursor) : cursor ≤ reach := by
  cases m with
  | idle => exact Nat.le_trans (Nat.le_of_eq h) (Nat.zero_le reach)
  | stepping => exact Nat.le_of_lt h.2
  | running => exact Nat.le_of_lt h
  | paused => exact Nat.le_of_lt h
  | finished => exact Nat.le_of_eq h

/-- A place that a mode fits is before the end, unless the mode is finished or idle. -/
theorem cases (h : m.fits reach cursor) :
    cursor < reach ∨ m = .finished ∧ cursor = reach ∨ m = .idle ∧ cursor = 0 := by
  cases m with
  | idle => exact .inr (.inr ⟨rfl, h⟩)
  | stepping => exact .inl h.2
  | running => exact .inl h
  | paused => exact .inl h
  | finished => exact .inr (.inl ⟨rfl, h⟩)

end Mode.fits

namespace Machine

private theorem execute_ends (m : Machine) (c : Command) : (m.execute c).request.any Request.isFinish = c.ends := by
  have hcode : Instruction.ofCode? c.code = some .finish ↔ c.ends = true := by
    unfold Command.ends Instruction.ofCode?
    split <;> simp_all
  unfold execute
  cases hi : Instruction.ofCode? c.code with
  | none =>
    rw [hi] at hcode
    cases he : c.ends with
    | false => rfl
    | true => exact absurd (hcode.mpr he) nofun
  | some instruction =>
    rw [hi] at hcode
    cases instruction <;> cases he : c.ends <;> simp_all [perform, Request.isFinish]

end Machine

namespace Playback

/-- A step within reach executes a command, and the last one finishes the program. -/
theorem step_within_reach {cs : List Command} {p : Playback} (s : Surface) (hprogram : p.program = cs.toArray)
    (hm : p.mode ≠ .finished) (h : p.cursor < Program.reach cs) :
    (p.step s).2 = true ∧ (p.step s).1.playback.cursor = p.cursor + 1 ∧
      (p.step s).1.playback.mode = (if p.cursor + 1 = Program.reach cs then .finished
        else if p.mode = .running then .running else .stepping) ∧
      (p.cursor + 1 ≠ Program.reach cs → (p.step s).1.playback.generation = p.generation) := by
  have hlt : p.cursor < cs.length := Nat.lt_of_lt_of_le h (Program.reach_le cs)
  have hc : cs[p.cursor]? = some cs[p.cursor] := List.getElem?_eq_getElem hlt
  have hstep : p.step s = (p.executeCommand s cs[p.cursor], true) := by
    rw [step, if_neg hm, hprogram, List.getElem?_toArray, hc]
  have hcursor := p.executeCommand_cursor s cs[p.cursor]
  have hlast := Program.last_within_reach h hc
  rw [hstep]
  refine ⟨rfl, hcursor, ?_⟩
  rw [executeCommand_eq] at hcursor ⊢
  have hmoved : (p.executed cs[p.cursor]).cursor = p.cursor + 1 := by
    rwa [cursor, settle_machine] at hcursor
  simp only [settle_eq, executed_mode, executed_program, hmoved, Machine.execute_ends, hprogram, List.size_toArray,
    hlast, decide_eq_true_eq]
  by_cases hk : p.cursor + 1 = Program.reach cs
  · rw [if_pos hk, if_pos hk]
    exact ⟨rfl, fun hne => absurd hk hne⟩
  · rw [if_neg hk, if_neg hk]
    exact ⟨rfl, fun _ => executed_generation p _⟩

/-- A step that is not within reach of a mode that fits its place only finishes. -/
theorem step_past_reach {cs : List Command} {p : Playback} (s : Surface) (hprogram : p.program = cs.toArray)
    (h : p.mode.fits (Program.reach cs) p.cursor) (hpast : ¬ (p.mode ≠ .finished ∧ p.cursor < Program.reach cs)) :
    p.cursor = Program.reach cs ∧ p.step s = (⟨p.finish, s, []⟩, false) := by
  by_cases hm : p.mode = .finished
  · rw [hm] at h
    exact ⟨h, by rw [step, if_pos hm]⟩
  · have hge : ¬ p.cursor < Program.reach cs := fun hlt => hpast ⟨hm, hlt⟩
    rcases h.cases with hlt | ⟨hfinished, -⟩ | ⟨-, hzero⟩
    · exact absurd hlt hge
    · exact absurd hfinished hm
    · -- only an empty program has no command for its first step
      have hnil : cs = [] := Classical.byContradiction fun hne => by
        have := Program.reach_pos hne
        omega
      subst hnil
      refine ⟨hzero, ?_⟩
      rw [step, if_neg hm, hprogram]
      rfl

/-- Whatever is done with a playback, its mode fits its place. -/
theorem fits_act {cs : List Command} {p : Playback} (s : Surface) (a : Act) (hprogram : p.program = cs.toArray)
    (h : p.mode.fits (Program.reach cs) p.cursor) :
    (p.act s a).playback.mode.fits (Program.reach cs) (p.act s a).playback.cursor := by
  cases a with
  | step =>
    rw [act]
    by_cases hreach : p.mode ≠ .finished ∧ p.cursor < Program.reach cs
    · obtain ⟨-, hcursor, hmode, -⟩ := p.step_within_reach s hprogram hreach.1 hreach.2
      rw [hcursor, hmode]
      split
      · rename_i hlast
        exact hlast
      · split
        · exact Nat.lt_of_le_of_ne hreach.2 ‹_›
        · exact ⟨Nat.succ_pos _, Nat.lt_of_le_of_ne hreach.2 ‹_›⟩
    · obtain ⟨hend, heq⟩ := step_past_reach s hprogram h hreach
      rw [heq]
      exact hend
  | run =>
    rw [act]
    obtain ⟨-, heq⟩ | ⟨-, hexhausted, heq⟩ | ⟨-, hleft, heq⟩ := p.run_cases
    · rw [heq]
      exact h
    · rw [heq]
      have hsize : p.mode = .finished ∨ cs.length ≤ p.cursor := by
        simpa [exhausted, hprogram] using hexhausted
      obtain hm | hle := hsize
      · rw [hm] at h
        exact h
      · exact Nat.le_antisymm h.cursor_le (Nat.le_trans (Program.reach_le cs) hle)
    · rw [heq]
      have hsize : p.mode ≠ .finished ∧ p.cursor < cs.length := by
        simpa [exhausted, hprogram] using hleft
      rcases h.cases with hlt | ⟨hfinished, -⟩ | ⟨-, hzero⟩
      · exact hlt
      · exact absurd hfinished hsize.1
      · have hpos := Program.reach_pos (List.ne_nil_of_length_pos (Nat.lt_of_le_of_lt (Nat.zero_le _) hsize.2))
        have hlt : p.cursor < Program.reach cs := by omega
        exact hlt
  | pause =>
    by_cases hm : p.mode = .running
    · rw [hm] at h
      simp only [act, pause, if_pos hm]
      exact h
    · simp only [act, pause, if_neg hm]
      exact h
  | reset => exact rfl
  | setSpeed speed =>
    rw [act, setSpeed_eq]
    exact h

/-- Whatever is done with a finished playback but a reset leaves its mode, its machine and the surface alone. -/
theorem act_finished {p : Playback} (s : Surface) {a : Act} (hm : p.mode = .finished) (ha : a ≠ .reset) :
    (p.act s a).playback.mode = .finished ∧ (p.act s a).playback.machine = p.machine ∧
      (p.act s a).surface = s ∧ (p.act s a).marks = [] := by
  cases a with
  | step =>
    have heq : p.step s = (⟨p.finish, s, []⟩, false) := by rw [step, if_pos hm]
    rw [act, heq]
    exact ⟨rfl, rfl, rfl, rfl⟩
  | run =>
    obtain ⟨hrunning, -⟩ | ⟨-, -, heq⟩ | ⟨-, hleft, -⟩ := p.run_cases
    · rw [hm] at hrunning
      cases hrunning
    · rw [act, heq]
      exact ⟨rfl, rfl, rfl, rfl⟩
    · simp [exhausted, hm] at hleft
  | pause => simp [act, pause, abandon, hm]
  | reset => exact absurd rfl ha
  | setSpeed speed =>
    rw [act, setSpeed_eq]
    exact ⟨hm, rfl, rfl, rfl⟩

end Playback

end WireCut
