import WireCut.Proofs.Bench.Log
import WireCut.Proofs.Machine.Motion

/-! Reports of a session. Its diagnostics are the warnings about the text and the reports of the commands that it
has executed, and those about cuts out of range are told apart from the strokes that are out of range. -/
namespace WireCut

namespace Playback

def Logged (text : String) (scale : Float) (p : Playback) : Prop :=
  p.log = some (((Machine.powerOn scale).reportsOf ((Program.commands text).take p.cursor)).reverse ++
    (Program.warnings text).reverse)

/-- Executing a cut draws one stroke. It is reported unless the stroke is finite and the cut does not escape. -/
private theorem step_cut (p : Playback) (s : Surface) {c : Command} (hm : p.mode ≠ .finished)
    (hc : p.program[p.cursor]? = some c) (hcut : c.isCut = true) :
    ∃ r stroke, (p.machine.execute c).request = some r ∧
      (p.step s).1.surface.strokes = s.strokes ++ [stroke] ∧
      (p.step s).1.playback.log = p.log.map (fun log =>
        if stroke.shape.isFinite && !r.escapes then log else Machine.outOfRange c :: log) ∧
      (r.escapes = true → stroke.shape.isFinite = true) := by
  obtain ⟨r, shape, hr, hshape, hreport, hescapes⟩ := p.machine.execute_cut hcut
  have hstep : p.step s = (p.executeCommand s c, true) := by
    rw [step, if_neg hm, hc]
  refine ⟨r, s.strokeOf r.line shape, hr, ?_, ?_, hescapes⟩
  · rw [hstep, executeCommand_eq, hr, Surface.render, hshape]
    exact Surface.strokes_draw s r.line shape
  · rw [hstep, executeCommand_eq, settle_log, executed_log, hreport]
    congr 1
    funext log
    change _ = if (shape.isFinite && !r.escapes) = true then log else Machine.outOfRange c :: log
    cases shape.isFinite && !r.escapes <;> rfl

end Playback

namespace Bench

/-- A session keeps its log, and as long as it is not reset, the log is that of one replay. -/
theorem logged_after (setup : Setup) (surface : Surface) (text : String) (speed : Option Quantity) (scale : Float)
    (events : List Event) (alone : ∀ e ∈ events, e.opens = false) :
    let b := (start setup surface text speed scale).after events
    ∃ p, b.desk.sessions = [⟨text, p⟩] ∧
      Playback.Placed setup scale (Program.commands text) p b.desk.surface b.desk.marks ∧ p.log.isSome = true ∧
      ((∀ e ∈ events, e.resets = false) → p.Logged text scale) := by
  obtain ⟨p, hp, hplaced, hlogs⟩ := logs_of_start setup surface text speed scale events alone
  refine ⟨p, hp, hplaced, by rw [hlogs]; rfl, ?_⟩
  intro hnone
  rw [Playback.Logs, rewinds_of_not_resets _ events hnone, List.flatMap_nil, List.append_nil,
    List.reverse_append] at hlogs
  exact hlogs

/-- Executing a cut draws one stroke, and it is reported exactly when the stroke is out of range or the cut
escapes. A stroke out of range leaves nothing to be seen, and the stroke of a cut that escapes is in range. So the
diagnostics of a session that was not reset count the strokes out of range and the cuts that escaped. -/
theorem outOfRange_reported (setup : Setup) (surface : Surface) (text : String) (speed : Option Quantity)
    (scale : Float) (events : List Event) (alone : ∀ e ∈ events, e.opens = false) :
    let b := (start setup surface text speed scale).after events
    ∃ p, b.desk.sessions = [⟨text, p⟩] ∧ p.log.isSome = true ∧
      (∀ c, p.mode ≠ .finished → p.program[p.cursor]? = some c → c.isCut = true →
        ∃ r stroke, (p.machine.execute c).request = some r ∧
          (p.step b.desk.surface).1.surface.strokes = b.desk.surface.strokes ++ [stroke] ∧
          (p.step b.desk.surface).1.playback.log = p.log.map (fun log =>
            if stroke.shape.isFinite && !r.escapes then log else Machine.outOfRange c :: log) ∧
          (r.escapes = true → stroke.shape.isFinite = true) ∧
          (stroke.shape.isFinite = false → stroke.shape.length = 0 ∧
            (∀ step, stroke.shape.points step = .ok []) ∧ stroke.shape.bounds = .ok none)) ∧
      ((∀ e ∈ events, e.resets = false) →
        p.diagnostics.countP (·.kind = .motion) = b.desk.surface.statistics.outOfRange +
          ((Machine.powerOn scale).executeAll ((Program.commands text).take p.cursor)).countP
            fun done => done.request.any Request.escapes) := by
  intro b
  obtain ⟨p, hp, hplaced, hkept, hlogged⟩ := logged_after setup surface text speed scale events alone
  refine ⟨p, hp, hkept, ?_, ?_⟩
  · intro c hm hc hcut
    obtain ⟨r, stroke, hr, hstrokes, hlog, hescapes⟩ := p.step_cut b.desk.surface hm hc hcut
    exact ⟨r, stroke, hr, hstrokes, hlog, hescapes, Shape.invisible⟩
  · intro hnone
    have hwarnings : (Program.warnings text).countP (·.kind = .motion) = 0 := by
      rw [List.countP_eq_zero]
      intro d hd
      simp [Program.warnings_kind hd]
    have hsorted : p.diagnostics.countP (·.kind = .motion) = (p.log.getD []).countP (·.kind = .motion) := by
      rw [Playback.diagnostics, Diagnostic.sorted, (List.mergeSort_perm _ _).countP_eq, List.countP_reverse]
    rw [hsorted, hlogged hnone, Option.getD_some, List.countP_append, List.countP_reverse, List.countP_reverse,
      hwarnings, Nat.add_zero, Machine.countP_reportsOf _ ⟨scale, setup.widthFactor⟩, ← hplaced.strokes_eq]
    rfl

/-- A line in range, an arc that escapes, and a line out of range from where that arc ends: two diagnostics, and one
stroke out of range. -/
theorem outOfRange_reported_after_escape :
    let text := "G01 X1\nG02 X1e999 I10\nG01 X2\nM02"
    let events : List Event := [.step 0, .run 0, .advance 250, .pause 0]
    let b := (start ⟨.whole 1, 1.5, true⟩ (.ofSize (.whole 800) (.whole 600)) text (some (.whole 5)) 1).after events
    (∀ e ∈ events, e.opens = false) ∧ b.desk.surface.statistics.outOfRange = 1 ∧
    (b.desk.sessions.map fun session => (session.playback.log.getD []).countP (·.kind = .motion)) = [2] ∧
    ∃ p, b.desk.sessions = [⟨text, p⟩] ∧ p.log.isSome = true ∧
      (∀ c, p.mode ≠ .finished → p.program[p.cursor]? = some c → c.isCut = true →
        ∃ r stroke, (p.machine.execute c).request = some r ∧
          (p.step b.desk.surface).1.surface.strokes = b.desk.surface.strokes ++ [stroke] ∧
          (p.step b.desk.surface).1.playback.log = p.log.map (fun log =>
            if stroke.shape.isFinite && !r.escapes then log else Machine.outOfRange c :: log) ∧
          (r.escapes = true → stroke.shape.isFinite = true) ∧
          (stroke.shape.isFinite = false → stroke.shape.length = 0 ∧
            (∀ step, stroke.shape.points step = .ok []) ∧ stroke.shape.bounds = .ok none)) ∧
      ((∀ e ∈ events, e.resets = false) →
        p.diagnostics.countP (·.kind = .motion) = b.desk.surface.statistics.outOfRange +
          ((Machine.powerOn 1).executeAll ((Program.commands text).take p.cursor)).countP
            fun done => done.request.any Request.escapes) := by
  refine ⟨by decide, by decide +kernel, by decide +kernel, ?_⟩
  exact outOfRange_reported ⟨.whole 1, 1.5, true⟩ (.ofSize (.whole 800) (.whole 600))
    "G01 X1\nG02 X1e999 I10\nG01 X2\nM02" (some (.whole 5)) 1 _ (by decide)

/-- An arc with an unbounded target is reported as out of range and not drawn, but its stroke is in range. -/
theorem unbounded_arc_drawn :
    let b := (start ⟨.whole 1, 1.5, false⟩ (.ofSize (.whole 800) (.whole 600)) "G02 X1e999 I10" none 1).after
      [.step 0]
    (b.desk.sessions.map fun session => session.playback.log.getD []) =
        [[⟨0, 0, 14, "Motion out of range, not drawn: G02 X1e999 I10", .motion, .error⟩]] ∧
      (b.desk.surface.strokes.map fun stroke => stroke.shape.isFinite) = [true] ∧
      b.desk.surface.statistics.outOfRange = 0 := by
  decide +kernel

end Bench

end WireCut
