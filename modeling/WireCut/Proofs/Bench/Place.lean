import WireCut.Proofs.Bench.Event
import WireCut.Proofs.Machine.Replay
import WireCut.Proofs.Program.Source

/-! The place of a playback in its program. However steps, runs, pauses, resets and wake-ups are mixed, the
machine, the drawing and the marks are those of one replay of the commands before the cursor. -/
namespace WireCut

def MarkChange.line? : MarkChange → Option Int
  | .mark line => some line
  | _ => none

/-- The lines that have been marked since all marks were removed, from the oldest on. The changes of marks
come with the newest first. -/
def MarkChange.linesMarked (marks : List MarkChange) : List Int :=
  ((marks.takeWhile (· ≠ .unmarkAll)).filterMap line?).reverse

namespace Playback

/-- A playback that has executed exactly the commands before its cursor, each once and in order, since it was
loaded or reset. The surface holds their strokes, and a followed execution has marked their lines. -/
structure Placed (setup : Setup) (scale : Float) (cs : List Command) (p : Playback) (s : Surface)
    (marks : List MarkChange) : Prop where
  setup_eq : p.setup = setup
  program_eq : p.program = cs.toArray
  cursor_le : p.cursor ≤ cs.length
  machine_eq : p.machine = { (Machine.powerOn scale).replay (cs.take p.cursor) with cursor := p.cursor }
  width_eq : s.lineWidth = (Pen.mk scale setup.widthFactor).width
  strokes_eq : s.strokes = (Machine.powerOn scale).strokesOf ⟨scale, setup.widthFactor⟩ (cs.take p.cursor)
  marks_eq : setup.followed = true → MarkChange.linesMarked marks = (cs.take p.cursor).map Command.line

namespace Placed
variable {setup : Setup} {scale : Float} {cs : List Command} {p : Playback} {s : Surface} {marks : List MarkChange}

private theorem pen_eq (h : Placed setup scale cs p s marks) : p.pen = ⟨scale, setup.widthFactor⟩ := by
  rw [pen, h.machine_eq, h.setup_eq]
  simp only [Machine.replay_scale]
  rfl

/-- Only the machine, the setup and the program of a playback tell its place. -/
private theorem congr {q : Playback} (h : Placed setup scale cs p s marks) (hm : q.machine = p.machine)
    (hs : q.setup = p.setup) (hp : q.program = p.program) : Placed setup scale cs q s marks := by
  have hc : q.cursor = p.cursor := congrArg Machine.cursor hm
  exact ⟨hs.trans h.setup_eq, hp.trans h.program_eq, hc ▸ h.cursor_le, by rw [hm, hc, h.machine_eq],
    h.width_eq, hc ▸ h.strokes_eq, hc ▸ h.marks_eq⟩

theorem take_next (h : Placed setup scale cs p s marks) {c : Command} (hc : p.program[p.cursor]? = some c) :
    p.cursor < cs.length ∧ cs.take (p.cursor + 1) = cs.take p.cursor ++ [c] := by
  rw [h.program_eq, List.getElem?_toArray] at hc
  obtain ⟨hlt, rfl⟩ := List.getElem?_eq_some_iff.mp hc
  exact ⟨hlt, List.take_succ_eq_append_getElem hlt⟩

/-- What the command at the cursor does is what it does in a replay. -/
theorem execute_eq (h : Placed setup scale cs p s marks) (c : Command) :
    p.machine.execute c =
      { ((Machine.powerOn scale).replay (cs.take p.cursor)).execute c with
        machine := { (((Machine.powerOn scale).replay (cs.take p.cursor)).execute c).machine with
          cursor := p.cursor } } := by
  rw [h.machine_eq, Machine.execute_withCursor]

/-- Executing the command at the cursor moves on by one place. -/
private theorem executeCommand (h : Placed setup scale cs p s marks) {c : Command} (hc : p.program[p.cursor]? = some c) :
    Placed setup scale cs (p.executeCommand s c).playback (p.executeCommand s c).surface
      ((p.executeCommand s c).marks.reverse ++ marks) := by
  obtain ⟨hlt, htake⟩ := h.take_next hc
  have hexec := h.execute_eq c
  have hcursor := p.executeCommand_cursor s c
  rw [executeCommand_eq] at hcursor ⊢
  refine ⟨by simp [h.setup_eq], by simp [h.program_eq], by rw [hcursor]; exact hlt, ?_, ?_, ?_, ?_⟩
  · rw [hcursor, htake, Machine.replay_concat, settle_machine, executed_machine, hexec]
    rfl
  · rw [Surface.lineWidth_render, h.width_eq]
  · rw [hcursor, htake, Machine.strokesOf_concat, Surface.strokes_render s _ _ h.width_eq, h.strokes_eq, hexec]
  · intro hf
    have hold := h.marks_eq hf
    have hset : (p.record (p.machine.execute c).report).setup.followed = true := by
      rw [record_setup, h.setup_eq, hf]
    rw [hcursor, htake, List.map_append, ← hold, follow_snd, if_pos hset, record_marked]
    -- the mark that is released does not count, and the new one comes last
    cases p.marked <;> simp [MarkChange.linesMarked, MarkChange.line?, List.filterMap_cons]

theorem reset (h : Placed setup scale cs p s marks) :
    Placed setup scale cs (p.reset s).playback (p.reset s).surface ((p.reset s).marks.reverse ++ marks) := by
  have hscale : p.machine.scale = scale := by
    rw [h.machine_eq]
    exact Machine.replay_scale _ _
  have hpen := h.pen_eq
  refine ⟨h.setup_eq, h.program_eq, Nat.zero_le _, ?_, ?_, ?_, ?_⟩
  · simp only [Playback.reset, Machine.reset, hscale]
    rfl
  · simp only [Playback.reset, Pen.prepare, hpen]
  · simp only [Playback.reset, Pen.prepare, hpen]
    rfl
  · intro hf
    simp only [Playback.reset, h.setup_eq, hf]
    rfl

theorem act (h : Placed setup scale cs p s marks) (a : Act) :
    Placed setup scale cs (p.act s a).playback (p.act s a).surface ((p.act s a).marks.reverse ++ marks) := by
  rcases p.act_cases s a with ⟨c, hc, heq⟩ | ⟨-, heq⟩ | ⟨speed, mode, generation, -, heq⟩
  · rw [heq]
    exact h.executeCommand hc
  · rw [heq]
    exact h.reset
  · rw [heq]
    exact h.congr rfl rfl rfl

theorem view (h : Placed setup scale cs p s marks) (change : ViewChange) :
    Placed setup scale cs p (s.view change) marks := by
  refine ⟨h.setup_eq, h.program_eq, h.cursor_le, h.machine_eq, ?_, ?_, h.marks_eq⟩
  · rw [← h.width_eq]
    cases change <;> rfl
  · rw [Surface.strokes_view, h.strokes_eq]

/-- The place alone decides about the machine and the drawing. -/
theorem eq_of_cursor (hp : Placed setup scale cs p s marks) {q : Playback} {t : Surface} {others : List MarkChange}
    (hq : Placed setup scale cs q t others) (h : p.cursor = q.cursor) : p.machine = q.machine ∧ s.strokes = t.strokes := by
  rw [hp.machine_eq, hq.machine_eq, hp.strokes_eq, hq.strokes_eq, h]
  exact ⟨rfl, rfl⟩

end Placed

end Playback

namespace Bench

theorem start_desk (setup : Setup) (surface : Surface) (text : String) (speed : Option Quantity) (scale : Float) :
    (start setup surface text speed scale).desk =
      ⟨setup, (Pen.mk scale setup.widthFactor).prepare ((Pen.mk scale setup.widthFactor).prepare surface),
        [⟨text, .fresh setup text speed scale⟩], if setup.followed then [.unmarkAll] else []⟩ := by
  rw [start, Desk.replace, Desk.opened, ofSurface, Session.create_eq]
  cases setup.followed <;> rfl

theorem placed_start (setup : Setup) (surface : Surface) (text : String) (speed : Option Quantity)
    (scale : Float) :
    Playback.Placed setup scale (Program.commands text) (.fresh setup text speed scale)
      (start setup surface text speed scale).desk.surface (start setup surface text speed scale).desk.marks := by
  rw [start_desk]
  refine ⟨rfl, rfl, Nat.zero_le _, rfl, rfl, rfl, ?_⟩
  intro hf
  rw [hf]
  rfl

/-- However the events of a session are mixed, also those inside a run of the clock, it has executed exactly
the commands before its cursor, each once and in the order of their lines: the machine is that of a replay of
those commands, the strokes on the surface are those of the replay, one for each cut and none for any other
command, and an editor has been sent to their lines and no others since the last reset. -/
theorem session_executes_prefix (setup : Setup) (surface : Surface) (text : String) (speed : Option Quantity)
    (scale : Float) (events : List Event) (alone : ∀ e ∈ events, e.opens = false) :
    let b := (start setup surface text speed scale).after events
    ∃ p, b.desk.sessions = [⟨text, p⟩] ∧
      Playback.Placed setup scale (Program.commands text) p b.desk.surface b.desk.marks ∧
      b.desk.surface.strokes.map Stroke.line =
        (((Program.commands text).take p.cursor).filter Command.isCut).map Command.line ∧
      ((Program.commands text).map Command.line).Pairwise (· < ·) := by
  obtain ⟨p, hp, hplaced⟩ := alone_after (P := Playback.Placed setup scale (Program.commands text)) (R := True)
    (fun _ _ _ a _ h => h.act a) (fun _ _ _ change h => h.view change) (start setup surface text speed scale)
    ⟨text, .fresh setup text speed scale⟩ (by rw [start_desk]) (placed_start setup surface text speed scale) events
    alone fun _ _ _ => trivial
  refine ⟨p, hp, hplaced, ?_, Program.commands_lines text⟩
  rw [hplaced.strokes_eq, Machine.strokesOf_lines]

/-- A run that is broken off by a step, a pause and a reset, while its first wake-ups are still waiting, stands
before the end command in the end. -/
theorem session_executes_prefix_interleaved :
    let events : List Event := [.run 0, .advance 500, .step 0, .pause 0, .run 0, .advance 500, .setSpeed 0 none,
      .reset 0, .step 0, .run 0, .runPending 1, .advance 1500]
    let b := (start ⟨.whole 1, 1.5, true⟩ (.ofSize (.whole 800) (.whole 600)) "G01 X1\nG92\nG02 X3 I1\nM02"
      (some (.whole 2)) 1).after events
    (∀ e ∈ events, e.opens = false) ∧ (b.desk.sessions.map fun session => session.playback.cursor) = [3] ∧
      ∃ p, b.desk.sessions = [⟨"G01 X1\nG92\nG02 X3 I1\nM02", p⟩] ∧
        Playback.Placed ⟨.whole 1, 1.5, true⟩ 1 (Program.commands "G01 X1\nG92\nG02 X3 I1\nM02") p b.desk.surface
          b.desk.marks ∧
        b.desk.surface.strokes.map Stroke.line =
          (((Program.commands "G01 X1\nG92\nG02 X3 I1\nM02").take p.cursor).filter Command.isCut).map
            Command.line ∧
        ((Program.commands "G01 X1\nG92\nG02 X3 I1\nM02").map Command.line).Pairwise (· < ·) := by
  refine ⟨by decide, by decide +kernel, ?_⟩
  exact session_executes_prefix ⟨.whole 1, 1.5, true⟩ (.ofSize (.whole 800) (.whole 600))
    "G01 X1\nG92\nG02 X3 I1\nM02" (some (.whole 2)) 1 _ (by decide)

end Bench

end WireCut
