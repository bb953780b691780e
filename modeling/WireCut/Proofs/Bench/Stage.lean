import WireCut.Proofs.Bench.Place
import WireCut.Proofs.Playback.Stage

/-! The stage of a session. Its mode tells where it is in its program, single steps take it to the end and no
further, and there only a reset moves it. -/
namespace WireCut

namespace Bench

section
variable (setup : Setup) (surface : Surface) (text : String) (speed : Option Quantity) (scale : Float)

/-- In every state of a session its mode fits its place. -/
private theorem fits_after (events : List Event) (alone : ∀ e ∈ events, e.opens = false) :
    let b := (start setup surface text speed scale).after events
    ∃ p, b.desk.sessions = [⟨text, p⟩] ∧
      Playback.Placed setup scale (Program.commands text) p b.desk.surface b.desk.marks ∧
      p.mode.fits (Program.reach (Program.commands text)) p.cursor := by
  let P (p : Playback) (s : Surface) (marks : List MarkChange) : Prop :=
    Playback.Placed setup scale (Program.commands text) p s marks ∧
      p.mode.fits (Program.reach (Program.commands text)) p.cursor
  have hstart : P (.fresh setup text speed scale) (start setup surface text speed scale).desk.surface
      (start setup surface text speed scale).desk.marks :=
    ⟨placed_start setup surface text speed scale, rfl⟩
  exact alone_after (P := P) (R := True)
    (fun p s _ a _ h => ⟨h.1.act a, Playback.fits_act s a h.1.program_eq h.2⟩)
    (fun _ _ _ change h => ⟨h.1.view change, h.2⟩) (start setup surface text speed scale)
    ⟨text, .fresh setup text speed scale⟩ (by rw [start_desk]) hstart events alone fun _ _ _ => trivial

end

/-- A step of a session whose mode fits its place executes a command exactly when there is one within reach, and
then moves on by one place. -/
private theorem step_of_fits {cs : List Command} {b : Bench} {text : String} {p : Playback}
    (hp : b.desk.sessions = [⟨text, p⟩]) (hprogram : p.program = cs.toArray)
    (h : p.mode.fits (Program.reach cs) p.cursor) :
    (b.perform (.step 0)).2 = .executed (decide (p.mode ≠ .finished ∧ p.cursor < Program.reach cs)) ∧
      ∃ q, (b.perform (.step 0)).1.desk.sessions = [⟨text, q⟩] ∧
        q.cursor = if p.mode ≠ .finished ∧ p.cursor < Program.reach cs then p.cursor + 1 else p.cursor := by
  obtain ⟨hreply, hsessions⟩ := step_alone hp
  rw [hreply]
  by_cases hreach : p.mode ≠ .finished ∧ p.cursor < Program.reach cs
  · obtain ⟨hexecuted, hcursor, -⟩ := p.step_within_reach b.desk.surface hprogram hreach.1 hreach.2
    rw [hexecuted, decide_eq_true hreach, if_pos hreach]
    exact ⟨rfl, _, hsessions, hcursor⟩
  · obtain ⟨-, heq⟩ := p.step_past_reach b.desk.surface hprogram h hreach
    rw [heq] at hsessions ⊢
    rw [decide_eq_false hreach, if_neg hreach]
    exact ⟨rfl, _, hsessions, rfl⟩

/-- A session that has finished stays where it is under every event but a reset. -/
private theorem finished_after {b : Bench} {text : String} {p : Playback} (hp : b.desk.sessions = [⟨text, p⟩])
    (hm : p.mode = .finished) (events : List Event) (quiet : ∀ e ∈ events, e.opens = false ∧ e.resets = false) :
    ∃ q, (b.after events).desk.sessions = [⟨text, q⟩] ∧ q.mode = .finished ∧ q.machine = p.machine ∧
      (b.after events).desk.surface.strokes = b.desk.surface.strokes := by
  let P (q : Playback) (s : Surface) (_ : List MarkChange) : Prop :=
    q.mode = .finished ∧ q.machine = p.machine ∧ s.strokes = b.desk.surface.strokes
  have hact (q : Playback) (s : Surface) (marks : List MarkChange) (a : Playback.Act) (ha : a = .reset → False)
      (h : P q s marks) : P (q.act s a).playback (q.act s a).surface ((q.act s a).marks.reverse ++ marks) := by
    obtain ⟨hmode, hmachine, hsurface, -⟩ := Playback.act_finished s h.1 ha
    exact ⟨hmode, hmachine.trans h.2.1, by rw [hsurface, h.2.2]⟩
  exact alone_after hact (fun _ s _ change h => ⟨h.1, h.2.1, (s.strokes_view change).trans h.2.2⟩) b ⟨text, p⟩ hp
    ⟨hm, rfl, rfl⟩ events (fun e he => (quiet e he).1) fun e he hreset => by
      rw [(quiet e he).2] at hreset
      cases hreset

/-- A number of single steps takes a new session as many commands forward, but not past the reach of its program. -/
private theorem cursor_of_steps (setup : Setup) (surface : Surface) (text : String) (speed : Option Quantity) (scale : Float)
    (n : Nat) :
    ∃ p, ((start setup surface text speed scale).after (List.replicate n (.step 0))).desk.sessions = [⟨text, p⟩] ∧
      p.cursor = min n (Program.reach (Program.commands text)) := by
  induction n with
  | zero =>
    refine ⟨.fresh setup text speed scale, ?_, (Nat.zero_min _).symm⟩
    rw [List.replicate_zero, after_nil, start_desk]
  | succ n ih =>
    obtain ⟨p, hp, hcursor⟩ := ih
    obtain ⟨p', hp', hplaced, hfits⟩ := fits_after setup surface text speed scale (List.replicate n (.step 0))
      fun e he => (quiet_steps n e he).1
    obtain rfl := playback_unique hp' hp
    obtain ⟨-, q, hq, hnext⟩ := step_of_fits hp' hplaced.program_eq hfits
    refine ⟨q, by rw [List.replicate_succ', after_append]; exact hq, ?_⟩
    rw [hnext]
    split
    · omega
    · rename_i hpast
      obtain ⟨hend, -⟩ := Playback.step_past_reach surface hplaced.program_eq hfits hpast
      omega

/-- The mode of a session tells where it is in its program, in every state that it can come to: at the start if it
is idle, at the end of its reach if it is finished, and before the end otherwise. A step executes a command exactly
when the session is not finished and not at the end, and then moves on by one place, so that single steps go through
the program up to its first end command. A finished session is moved by nothing but a reset. -/
theorem mode_tells_place (setup : Setup) (surface : Surface) (text : String) (speed : Option Quantity) (scale : Float)
    (events : List Event) (alone : ∀ e ∈ events, e.opens = false) :
    let cs := Program.commands text
    let reach := min (cs.findIdx Command.ends + 1) cs.length
    let fresh := start setup surface text speed scale
    let b := fresh.after events
    (∃ p, b.desk.sessions = [⟨text, p⟩] ∧ Playback.Placed setup scale cs p b.desk.surface b.desk.marks ∧
      p.cursor ≤ reach ∧ p.mode.fits reach p.cursor ∧
      (b.perform (.step 0)).2 = .executed (decide (p.mode ≠ .finished ∧ p.cursor < reach)) ∧
      (∃ q, (b.perform (.step 0)).1.desk.sessions = [⟨text, q⟩] ∧
        q.cursor = if p.mode ≠ .finished ∧ p.cursor < reach then p.cursor + 1 else p.cursor) ∧
      (p.mode = .finished → ∀ later : List Event, (∀ e ∈ later, e.opens = false ∧ e.resets = false) →
        ∃ q, (b.after later).desk.sessions = [⟨text, q⟩] ∧ q.mode = .finished ∧ q.machine = p.machine ∧
          (b.after later).desk.surface.strokes = b.desk.surface.strokes)) ∧
    ∀ n, ∃ q, (fresh.after (List.replicate n (.step 0))).desk.sessions = [⟨text, q⟩] ∧ q.cursor = min n reach := by
  intro cs reach fresh b
  have hreach : Program.reach cs = reach := Program.reach_eq_min cs
  rw [← hreach]
  obtain ⟨p, hp, hplaced, hfits⟩ := fits_after setup surface text speed scale events alone
  obtain ⟨hreply, hnext⟩ := step_of_fits hp hplaced.program_eq hfits
  exact ⟨⟨p, hp, hplaced, hfits.cursor_le, hfits, hreply, hnext, finished_after hp⟩,
    cursor_of_steps setup surface text speed scale⟩

/-- A program that has come to its end command, with a command behind it, after a step, a run and a pause. -/
theorem mode_tells_place_at_end :
    let text := "G01 X1\nG92\nM02\nG01 X5"
    let events : List Event := [.step 0, .run 0, .advance 500, .run 0, .pause 0]
    let cs := Program.commands text
    let reach := min (cs.findIdx Command.ends + 1) cs.length
    let fresh := start ⟨.whole 1, 1.5, true⟩ (.ofSize (.whole 800) (.whole 600)) text (some (.whole 5)) 1
    let b := fresh.after events
    (∀ e ∈ events, e.opens = false) ∧ cs.length = 4 ∧ reach = 3 ∧
    (b.desk.sessions.map fun session => (session.playback.mode, session.playback.cursor)) = [(.finished, 3)] ∧
    (∃ p, b.desk.sessions = [⟨text, p⟩] ∧
      Playback.Placed ⟨.whole 1, 1.5, true⟩ 1 cs p b.desk.surface b.desk.marks ∧
      p.cursor ≤ reach ∧ p.mode.fits reach p.cursor ∧
      (b.perform (.step 0)).2 = .executed (decide (p.mode ≠ .finished ∧ p.cursor < reach)) ∧
      (∃ q, (b.perform (.step 0)).1.desk.sessions = [⟨text, q⟩] ∧
        q.cursor = if p.mode ≠ .finished ∧ p.cursor < reach then p.cursor + 1 else p.cursor) ∧
      (p.mode = .finished → ∀ later : List Event, (∀ e ∈ later, e.opens = false ∧ e.resets = false) →
        ∃ q, (b.after later).desk.sessions = [⟨text, q⟩] ∧ q.mode = .finished ∧ q.machine = p.machine ∧
          (b.after later).desk.surface.strokes = b.desk.surface.strokes)) ∧
    ∀ n, ∃ q, (fresh.after (List.replicate n (.step 0))).desk.sessions = [⟨text, q⟩] ∧ q.cursor = min n reach := by
  refine ⟨by decide, by decide +kernel, by decide +kernel, by decide +kernel, ?_⟩
  exact mode_tells_place ⟨.whole 1, 1.5, true⟩ (.ofSize (.whole 800) (.whole 600)) "G01 X1\nG92\nM02\nG01 X5"
    (some (.whole 5)) 1 _ (by decide)

end Bench

end WireCut
