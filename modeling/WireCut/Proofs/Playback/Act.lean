import WireCut.Playback.Basic
import WireCut.Proofs.Machine.Replay

/-! Acts: the five things that can be done with a playback. Events of a bench and wake-ups of its agenda are
acts, so a property that every act keeps is kept by every interleaving of them. -/
namespace WireCut

/-- The speed that a playback takes when it is given one: the least speed in the place of one that is missing,
not finite or too low. -/
def Setup.accepted (setup : Setup) : Option Quantity → Quantity
  | none => setup.minimumSpeed
  | some v => if !v.isFinite || v.lt setup.minimumSpeed then setup.minimumSpeed else v

namespace Playback

inductive Act where
  | step
  | run
  | pause
  | reset
  | setSpeed (speed : Option Quantity)
deriving DecidableEq

def act (p : Playback) (s : Surface) : Act → Played
  | .step => (p.step s).1
  | .run => ⟨p.run.1, s, []⟩
  | .pause => ⟨p.pause, s, []⟩
  | .reset => p.reset s
  | .setSpeed speed => ⟨p.setSpeed speed, s, []⟩

def awaits (p : Playback) (generation : Nat) : Bool :=
  generation = p.generation && p.mode = .running

theorem awaits_iff {p : Playback} {generation : Nat} :
    p.awaits generation = true ↔ generation = p.generation ∧ p.mode = .running := by
  rw [awaits, Bool.and_eq_true, decide_eq_true_eq, decide_eq_true_eq]

/-- The playback right before a command takes effect on its mode: the machine has moved, and the diagnostic
and the mark are in place. -/
def executed (p : Playback) (c : Command) : Playback :=
  let done := p.machine.execute c
  { ((p.record done.report).follow c.line).1 with machine := done.machine.advance }

@[simp] theorem record_mode (p : Playback) (d : Option Diagnostic) : (p.record d).mode = p.mode := by
  cases d <;> rfl

@[simp] theorem record_generation (p : Playback) (d : Option Diagnostic) :
    (p.record d).generation = p.generation := by
  cases d <;> rfl

@[simp] theorem record_speed (p : Playback) (d : Option Diagnostic) : (p.record d).speed = p.speed := by
  cases d <;> rfl

@[simp] theorem record_setup (p : Playback) (d : Option Diagnostic) : (p.record d).setup = p.setup := by
  cases d <;> rfl

@[simp] theorem record_program (p : Playback) (d : Option Diagnostic) : (p.record d).program = p.program := by
  cases d <;> rfl

@[simp] theorem record_marked (p : Playback) (d : Option Diagnostic) : (p.record d).marked = p.marked := by
  cases d <;> rfl

private theorem record_log (p : Playback) (d : Option Diagnostic) :
    (p.record d).log = p.log.map fun log => d.toList ++ log := by
  cases d with
  | none => simp [record]
  | some d => simp [record]

theorem follow_fst (p : Playback) (line : Int) :
    (p.follow line).1 = { p with marked := if p.setup.followed then some line else p.marked } := by
  unfold follow
  split <;> rfl

@[simp] theorem executed_machine (p : Playback) (c : Command) :
    (p.executed c).machine = (p.machine.execute c).machine.advance := rfl

@[simp] theorem executed_mode (p : Playback) (c : Command) : (p.executed c).mode = p.mode := by
  simp [executed, follow_fst]

@[simp] theorem executed_generation (p : Playback) (c : Command) :
    (p.executed c).generation = p.generation := by
  simp [executed, follow_fst]

@[simp] theorem executed_speed (p : Playback) (c : Command) : (p.executed c).speed = p.speed := by
  simp [executed, follow_fst]

@[simp] theorem executed_setup (p : Playback) (c : Command) : (p.executed c).setup = p.setup := by
  simp [executed, follow_fst]

@[simp] theorem executed_program (p : Playback) (c : Command) : (p.executed c).program = p.program := by
  simp [executed, follow_fst]

theorem executed_log (p : Playback) (c : Command) :
    (p.executed c).log = p.log.map fun log => (p.machine.execute c).report.toList ++ log := by
  simp [executed, follow_fst, record_log]

/-- Settling decides on the mode, and it bumps the generation exactly when the program ends. -/
theorem settle_eq (p : Playback) (ended : Bool) :
    p.settle ended =
      if ended || decide (p.program.size ≤ p.cursor) then p.finish
      else { p with mode := if p.mode = .running then .running else .stepping } := by
  unfold settle
  split
  · rfl
  · by_cases h : p.mode = .running
    · rw [if_pos h, if_pos h, ← h]
    · rw [if_neg h, if_neg h]

@[simp] theorem settle_machine (p : Playback) (ended : Bool) : (p.settle ended).machine = p.machine := by
  rw [settle_eq]
  split <;> rfl

@[simp] theorem settle_setup (p : Playback) (ended : Bool) : (p.settle ended).setup = p.setup := by
  rw [settle_eq]
  split <;> rfl

@[simp] theorem settle_program (p : Playback) (ended : Bool) : (p.settle ended).program = p.program := by
  rw [settle_eq]
  split <;> rfl

@[simp] theorem settle_speed (p : Playback) (ended : Bool) : (p.settle ended).speed = p.speed := by
  rw [settle_eq]
  split <;> rfl

@[simp] theorem settle_log (p : Playback) (ended : Bool) : (p.settle ended).log = p.log := by
  rw [settle_eq]
  split <;> rfl

/-- Executing a command, with the part that does not concern the mode named on its own. -/
theorem executeCommand_eq (p : Playback) (s : Surface) (c : Command) :
    p.executeCommand s c =
      ⟨(p.executed c).settle ((p.machine.execute c).request.any Request.isFinish),
        s.render (p.machine.execute c).request, ((p.record (p.machine.execute c).report).follow c.line).2⟩ := rfl

theorem executeCommand_cursor (p : Playback) (s : Surface) (c : Command) :
    (p.executeCommand s c).playback.cursor = p.cursor + 1 := by
  rw [executeCommand_eq, cursor, settle_machine, executed_machine]
  exact congrArg (· + 1) (p.machine.execute_cursor c)

/-- The marks of an executed command: the old line is released before the new one is marked. -/
theorem follow_snd (p : Playback) (line : Int) :
    (p.follow line).2 =
      if p.setup.followed then (p.marked.map MarkChange.unmark).toList ++ [.mark line] else [] := by
  unfold follow
  split <;> rfl

/-- A step with a command left executes it, and any other step only finishes. -/
theorem step_cases (p : Playback) (s : Surface) :
    (∃ c, p.mode ≠ .finished ∧ p.program[p.cursor]? = some c ∧ p.step s = (p.executeCommand s c, true)) ∨
      ((p.mode = .finished ∨ p.program.size ≤ p.cursor) ∧ p.step s = (⟨p.finish, s, []⟩, false)) := by
  unfold step
  by_cases hm : p.mode = .finished
  · exact .inr ⟨.inl hm, by rw [if_pos hm]⟩
  · rw [if_neg hm]
    cases hc : p.program[p.cursor]? with
    | none => exact .inr ⟨.inr (Array.getElem?_eq_none_iff.mp hc), rfl⟩
    | some c => exact .inl ⟨c, hm, rfl, rfl⟩

/-- A run starts from a place with a command left, and any other run changes at most the mode. -/
theorem run_cases (p : Playback) :
    (p.mode = .running ∧ p.run = (p, false)) ∨
      (p.mode ≠ .running ∧ p.exhausted = true ∧ p.run = (p.finish, false)) ∨
      (p.mode ≠ .running ∧ p.exhausted = false ∧
        p.run = ({ p with mode := .running, generation := p.generation + 1 }, true)) := by
  unfold run
  by_cases hm : p.mode = .running
  · exact .inl ⟨hm, by rw [if_pos hm]⟩
  · rw [if_neg hm]
    cases he : p.exhausted with
    | true => exact .inr (.inl ⟨hm, rfl, rfl⟩)
    | false => exact .inr (.inr ⟨hm, rfl, rfl⟩)

theorem setSpeed_eq (p : Playback) (speed : Option Quantity) :
    p.setSpeed speed = { p with speed := p.setup.accepted speed } := by
  cases speed with
  | none => rfl
  | some v =>
    simp only [setSpeed, Setup.accepted]
    split <;> rfl

theorem wake_of_awaits (p : Playback) (s : Surface) (generation : Nat) (h : p.awaits generation = true) :
    p.wake s generation =
      ⟨(p.step s).1, if (p.step s).1.playback.mode = .running
        then (p.step s).1.playback.interval.map some else .ok none⟩ := by
  unfold wake
  rw [awaits] at h
  rw [if_pos h]

theorem wake_of_not_awaits (p : Playback) (s : Surface) (generation : Nat) (h : p.awaits generation = false) :
    p.wake s generation = ⟨⟨p, s, []⟩, .ok none⟩ := by
  unfold wake
  rw [awaits] at h
  rw [h]
  rfl

/-- An act executes the command at the cursor, or it resets, or it leaves the place and the surface alone. -/
theorem act_cases (p : Playback) (s : Surface) (a : Act) :
    (∃ c, p.program[p.cursor]? = some c ∧ p.act s a = p.executeCommand s c) ∨
      (a = .reset ∧ p.act s a = p.reset s) ∨
      ∃ speed mode generation, (speed = p.speed ∨ ∃ given, speed = p.setup.accepted given) ∧
        p.act s a = ⟨{ p with speed, mode, generation }, s, []⟩ := by
  cases a with
  | step =>
    rcases p.step_cases s with ⟨c, -, hc, heq⟩ | ⟨-, heq⟩
    · exact .inl ⟨c, hc, congrArg Prod.fst heq⟩
    · exact .inr (.inr ⟨_, _, _, .inl rfl, congrArg Prod.fst heq⟩)
  | run =>
    refine .inr (.inr ?_)
    rcases p.run_cases with ⟨-, heq⟩ | ⟨-, -, heq⟩ | ⟨-, -, heq⟩
    · exact ⟨_, _, _, .inl rfl, by rw [act, heq]⟩
    · exact ⟨_, _, _, .inl rfl, by rw [act, heq, finish]⟩
    · exact ⟨_, _, _, .inl rfl, by rw [act, heq]⟩
  | pause => exact .inr (.inr ⟨_, _, _, .inl rfl, rfl⟩)
  | reset => exact .inr (.inl ⟨rfl, rfl⟩)
  | setSpeed given => exact .inr (.inr ⟨_, p.mode, p.generation, .inr ⟨given, rfl⟩, by rw [act, setSpeed_eq]⟩)

theorem act_setup (p : Playback) (s : Surface) (a : Act) : (p.act s a).playback.setup = p.setup := by
  rcases p.act_cases s a with ⟨c, -, heq⟩ | ⟨-, heq⟩ | ⟨speed, mode, generation, -, heq⟩
  · rw [heq, executeCommand_eq, settle_setup, executed_setup]
  · rw [heq, reset]
  · rw [heq]

theorem act_program (p : Playback) (s : Surface) (a : Act) : (p.act s a).playback.program = p.program := by
  rcases p.act_cases s a with ⟨c, -, heq⟩ | ⟨-, heq⟩ | ⟨speed, mode, generation, -, heq⟩
  · rw [heq, executeCommand_eq, settle_program, executed_program]
  · rw [heq, reset]
  · rw [heq]

theorem step_speed (p : Playback) (s : Surface) : (p.act s .step).playback.speed = p.speed := by
  rw [act]
  obtain ⟨c, -, -, heq⟩ | ⟨-, heq⟩ := p.step_cases s
  · rw [heq, executeCommand_eq, settle_speed, executed_speed]
  · rw [heq]
    rfl

end Playback

end WireCut
