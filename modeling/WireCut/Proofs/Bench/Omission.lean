import WireCut.Proofs.Bench.Headless
import WireCut.Proofs.Program.Omission

/-! Lines left out of a stepped program. A session is stepped until a step finds no command. Whether the lines that
have no effect are there or not, it comes to the same end. -/
namespace WireCut.Bench

/-- The first session is stepped until a step finds no command. -/
inductive SteppedOut : Bench → Bench → Prop where
  | last {b : Bench} (reply : (b.perform (.step 0)).2 = .executed false) : SteppedOut b (b.perform (.step 0)).1
  | next {b out : Bench} (reply : (b.perform (.step 0)).2 = .executed true)
      (later : SteppedOut (b.perform (.step 0)).1 out) : SteppedOut b out

/-- Stepping comes to one end only. -/
private theorem SteppedOut.unique {b out other : Bench} (h : SteppedOut b out) (h' : SteppedOut b other) : out = other := by
  induction h with
  | last reply =>
    cases h' with
    | last => rfl
    | next reply' =>
      rw [reply] at reply'
      cases reply'
  | next reply _ ih =>
    cases h' with
    | last reply' =>
      rw [reply] at reply'
      cases reply'
    | next _ later' => exact ih later'

/-- Steps that find a command so many times, and then none, are all the steps. -/
private theorem steppedOut_of_replies {n : Nat} {b : Bench}
    (replies : ∀ k ≤ n, ((b.after (List.replicate k (.step 0))).perform (.step 0)).2 = .executed (decide (k < n))) :
    SteppedOut b (b.after (List.replicate (n + 1) (.step 0))) := by
  induction n generalizing b with
  | zero => exact .last (replies 0 le_rfl)
  | succ n ih =>
    refine .next ((replies 0 (Nat.zero_le _)).trans (by simp)) (ih fun k hk => ?_)
    rw [← after_cons, ← List.replicate_succ, replies (k + 1) (Nat.succ_le_succ hk)]
    simp

section
variable (setup : Setup) (surface : Surface) (text : String) (speed : Option Quantity) (scale : Float)

/-- Stepping a session comes to an end, and there the session has finished. Its machine, its strokes and its
diagnostics are those of the commands within reach, executed once. -/
private theorem steppedOut_start :
    let within := (Program.commands text).take (Program.reach (Program.commands text))
    ∃ out p, (∀ b, SteppedOut (start setup surface text speed scale) b ↔ b = out) ∧
      out.desk.sessions = [⟨text, p⟩] ∧ p.mode = .finished ∧
      p.machine = { (Machine.powerOn scale).replay within with cursor := p.cursor } ∧
      out.desk.surface.strokes = (Machine.powerOn scale).strokesOf ⟨scale, setup.widthFactor⟩ within ∧
      p.diagnostics.Perm (Program.warnings text ++ (Machine.powerOn scale).reportsOf within) := by
  intro within
  let n := Program.reach (Program.commands text)
  let steps := List.replicate (n + 1) (Event.step 0)
  have hsteps : ∀ e ∈ steps, e.opens = false ∧ e.resets = false := quiet_steps (n + 1)
  obtain ⟨p, hp, hplaced, -, hlogged⟩ := logged_after setup surface text speed scale steps fun e he => (hsteps e he).1
  obtain ⟨q, hq, hfinished, hcursor⟩ := (step_replies setup surface text speed scale n le_rfl).2 rfl
  obtain rfl := playback_unique hp hq
  have hout : SteppedOut (start setup surface text speed scale) ((start setup surface text speed scale).after steps) :=
    steppedOut_of_replies fun k hk => (step_replies setup surface text speed scale k hk).1
  have hwithin : (Program.commands text).take p.cursor = within := by rw [hcursor]
  refine ⟨_, p, fun b => ⟨fun h => h.unique hout, fun h => h ▸ hout⟩, hp, hfinished, ?_, ?_, ?_⟩
  · rw [← hwithin]
    exact hplaced.machine_eq
  · rw [← hwithin]
    exact hplaced.strokes_eq
  · rw [Playback.diagnostics, hlogged fun e he => (hsteps e he).2, hwithin, Option.getD_some, List.reverse_append,
      List.reverse_reverse, List.reverse_reverse]
    exact List.mergeSort_perm _ _

end

/-- The diagnostics of a stepped program about cuts out of range are reports of its commands. -/
private theorem motion_diagnostics {text : String} {diagnostics reports : List Diagnostic}
    (h : diagnostics.Perm (Program.warnings text ++ reports)) :
    (diagnostics.filter (·.kind = .motion)).Perm (reports.filter (·.kind = .motion)) := by
  have hwarnings : (Program.warnings text).filter (·.kind = .motion) = [] := by
    rw [List.filter_eq_nil_iff]
    intro d hd
    simp [Program.warnings_kind hd]
  have hfilter := h.filter (·.kind = .motion)
  rwa [List.filter_append, hwarnings, List.nil_append] at hfilter

/-- Comments, lines with an unknown code, and lines behind an end command, any number of them, can be empty lines as
well. Stepping a session until a step finds no command comes to an end with them and without them, and at both ends the
session has finished, with the same strokes from the same lines, the same machine but for the number of commands, and
the same diagnostics about cuts out of range. -/
theorem idle_lines_omitted (setup : Setup) (surface : Surface) (text : String) (speed : Option Quantity)
    (scale : Float) (omitted : Nat → Bool)
    (idle : ∀ number < (Text.lines text.toList).length, omitted number = true → Program.Idle text number) :
    let left := Program.omitting omitted text
    ∃ out out', (∀ b, SteppedOut (start setup surface text speed scale) b ↔ b = out) ∧
      (∀ b, SteppedOut (start setup surface left speed scale) b ↔ b = out') ∧
      ∃ p q, out.desk.sessions = [⟨text, p⟩] ∧ out'.desk.sessions = [⟨left, q⟩] ∧
        p.mode = .finished ∧ q.mode = .finished ∧ out.desk.surface.strokes = out'.desk.surface.strokes ∧
        q.machine = { p.machine with cursor := q.cursor } ∧
        (p.diagnostics.filter (·.kind = .motion)).Perm (q.diagnostics.filter (·.kind = .motion)) := by
  intro left
  obtain ⟨hunknown, hleft⟩ := Program.take_reach_omitting idle
  obtain ⟨hreplay, hstrokes, hreports⟩ :=
    Machine.replay_without_unknown hunknown (.powerOn scale) ⟨scale, setup.widthFactor⟩
  obtain ⟨out, p, hsteps, hp, hmode, hmachine, hdrawn, hdiagnostics⟩ :=
    steppedOut_start setup surface text speed scale
  obtain ⟨out', q, hsteps', hq, hmode', hmachine', hdrawn', hdiagnostics'⟩ :=
    steppedOut_start setup surface left speed scale
  rw [hleft] at hmachine' hdrawn' hdiagnostics'
  refine ⟨out, out', hsteps, hsteps', p, q, hp, hq, hmode, hmode', ?_, ?_, ?_⟩
  · rw [hdrawn, hdrawn', hstrokes]
  · rw [hmachine', hmachine, hreplay]
  · have hmotion := motion_diagnostics hdiagnostics'
    rw [hreports] at hmotion
    exact (motion_diagnostics hdiagnostics).trans hmotion.symm

/-- A comment in front, an unknown code between two cuts, of which the second is out of range, and a cut and a comment
behind the end command. -/
theorem idle_lines_omitted_readable :
    let text := "; edge\nG01 X1\nG99 X3\nG91\n G02 X1e999 I1\nM02\nG01 X9\n; end"
    let omitted : Nat → Bool := fun number => number ∈ [0, 2, 6, 7]
    let left := Program.omitting omitted text
    let setup : Setup := ⟨.whole 1, 1.5, false⟩
    let surface := Surface.ofSize (.whole 800) (.whole 600)
    left.toList = "\nG01 X1\n\nG91\n G02 X1e999 I1\nM02\n\n".toList ∧
    (Program.commands text).length = 6 ∧ (Program.commands left).length = 4 ∧
    (∀ number < (Text.lines text.toList).length, omitted number = true → Program.Idle text number) ∧
    ∃ out out', (∀ b, SteppedOut (start setup surface text none 2) b ↔ b = out) ∧
      (∀ b, SteppedOut (start setup surface left none 2) b ↔ b = out') ∧
      ∃ p q, out.desk.sessions = [⟨text, p⟩] ∧ out'.desk.sessions = [⟨left, q⟩] ∧
        p.mode = .finished ∧ q.mode = .finished ∧ out.desk.surface.strokes = out'.desk.surface.strokes ∧
        q.machine = { p.machine with cursor := q.cursor } ∧
        (p.diagnostics.filter (·.kind = .motion)).Perm (q.diagnostics.filter (·.kind = .motion)) := by
  intro text omitted left setup surface
  have hidle : ∀ number < (Text.lines text.toList).length, omitted number = true → Program.Idle text number := by
    intro number _ homitted
    have hcases : number = 0 ∨ number = 2 ∨ number = 6 ∨ number = 7 := by simpa [omitted] using homitted
    obtain rfl | rfl | rfl | rfl := hcases
    · exact .comment "; edge".toList (by decide +kernel) (by decide +kernel)
    · exact .unknown "G99 X3".toList ⟨"G99 X3", "G99", [("X", 3)], 2⟩ (by decide +kernel) (by decide +kernel) rfl
    · exact .behind 5 "M02".toList ⟨"M02", "M02", [], 5⟩ (by decide) (by decide +kernel) (by decide +kernel) rfl
    · exact .comment "; end".toList (by decide +kernel) (by decide +kernel)
  exact ⟨by decide +kernel, by decide +kernel, by decide +kernel, hidle,
    idle_lines_omitted setup surface text none 2 omitted hidle⟩

end WireCut.Bench
