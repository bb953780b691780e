import Mathlib.Data.List.Nodup
import WireCut.Proofs.Bench.Place

/-! Strokes and their lines. A line of a text has one stroke on the surface of its session from the time that its cut is
executed, and none before, so the strokes can be told apart by their lines, and the counts of a surface agree. -/
namespace WireCut

namespace Program
open Text

def commandAt? (text : String) : Int → Option Command
  | .ofNat number => (lines text.toList)[number]?.bind fun line => commandOf line number
  | .negSucc _ => none

/-- A line has the one command that stands in it. -/
private theorem commandAt?_eq_some {text : String} {line : Int} {c : Command} :
    commandAt? text line = some c ↔ c ∈ commands text ∧ c.line = line := by
  rw [mem_commands]
  constructor
  · intro h
    cases line with
    | ofNat number =>
      obtain ⟨characters, hline, hc⟩ := Option.bind_eq_some_iff.mp h
      exact ⟨⟨number, characters, hline, hc⟩, commandOf_line hc⟩
    | negSucc _ => cases h
  · rintro ⟨⟨number, characters, hline, hc⟩, rfl⟩
    rw [commandOf_line hc]
    exact Option.bind_eq_some_iff.mpr ⟨characters, hline, hc⟩

end Program

namespace Machine
variable {m : Machine} {pen : Pen} {cs : List Command}

/-- A stroke has the line of the cut that it was drawn for. -/
private theorem line_of_stroke? {c : Command} {stroke : Stroke} (h : pen.stroke? (m.execute c).request = some stroke) :
    c.isCut = true ∧ stroke.line = c.line := by
  have hline := m.stroke?_line pen c
  rw [h] at hline
  split at hline
  · rename_i hcut
    exact ⟨hcut, Option.some.inj hline⟩
  · cases hline

private theorem exists_stroke? (m : Machine) (pen : Pen) {c : Command} (hcut : c.isCut = true) :
    ∃ stroke, pen.stroke? (m.execute c).request = some stroke := by
  have hline := m.stroke?_line pen c
  rw [if_pos hcut] at hline
  obtain ⟨stroke, hstroke, -⟩ := Option.map_eq_some_iff.mp hline
  exact ⟨stroke, hstroke⟩

/-- The strokes of commands in the order of their lines are in the order of their lines. -/
private theorem strokesOf_ascend (ascend : (cs.map Command.line).Pairwise (· < ·)) :
    ((m.strokesOf pen cs).map Stroke.line).Pairwise (· < ·) := by
  rw [strokesOf_lines]
  exact ascend.sublist (List.filter_sublist.map Command.line)

/-- A line without a cut has no stroke. -/
private theorem filter_strokesOf_eq_nil {line : Int} (h : ∀ c ∈ cs, c.isCut = true → c.line ≠ line) :
    (m.strokesOf pen cs).filter (·.line = line) = [] := by
  rw [List.filter_eq_nil_iff]
  intro stroke hmem
  obtain ⟨k, c, hc, hstroke⟩ := mem_strokesOf.mp hmem
  obtain ⟨hcut, hline⟩ := line_of_stroke? hstroke
  rw [hline, decide_eq_true_eq]
  exact h c (List.mem_of_getElem? hc) hcut

/-- After some of the commands, the line of a cut has its one stroke if the cut is among them, and none otherwise. -/
private theorem filter_strokesOf (ascend : (cs.map Command.line).Pairwise (· < ·)) {k : Nat} {c : Command}
    (hc : cs[k]? = some c) {stroke : Stroke}
    (hstroke : pen.stroke? ((m.replay (cs.take k)).execute c).request = some stroke) (n : Nat) :
    (m.strokesOf pen (cs.take n)).filter (·.line = c.line) = if k < n then [stroke] else [] := by
  split
  · rename_i hk
    have hmem : stroke ∈ m.strokesOf pen (cs.take n) := by
      refine mem_strokesOf.mpr ⟨k, c, ?_, ?_⟩
      · rw [List.getElem?_take_of_lt hk, hc]
      · rwa [List.take_take, Nat.min_eq_left (Nat.le_of_lt hk)]
    have hnodup : ((m.strokesOf pen (cs.take n)).map Stroke.line).Nodup :=
      (strokesOf_ascend (ascend.sublist ((List.take_sublist n cs).map Command.line))).nodup
    have hsame : ∀ other ∈ m.strokesOf pen (cs.take n),
        decide (other.line = c.line) = decide (other = stroke) := by
      intro other hother
      rw [← (line_of_stroke? hstroke).2, decide_eq_decide]
      exact ⟨List.inj_on_of_nodup_map hnodup hother hmem, congrArg Stroke.line⟩
    rw [List.filter_congr hsame, List.filter_eq, List.count_eq_one_of_mem hnodup.of_map hmem]
    rfl
  · rename_i hk
    apply filter_strokesOf_eq_nil
    intro d hd _
    -- a command that is executed stands in front of one that is not
    obtain ⟨j, hj⟩ := List.mem_iff_getElem?.mp hd
    rw [List.getElem?_take] at hj
    split at hj
    · rename_i hjn
      rw [List.pairwise_map, List.pairwise_iff_getElem] at ascend
      obtain ⟨hjlt, rfl⟩ := List.getElem?_eq_some_iff.mp hj
      obtain ⟨hklt, rfl⟩ := List.getElem?_eq_some_iff.mp hc
      exact Int.ne_of_lt (ascend j k hjlt hklt (by omega))
    · cases hj

end Machine

/-- On a surface whose strokes have different lines, every stroke counts as one line of the source. -/
private theorem Surface.sourceLines_eq {s : Surface} (h : (s.strokes.map Stroke.line).Nodup) :
    s.statistics.sourceLines = s.statistics.strokes := by
  have hsize : s.statistics.sourceLines = (s.strokes.map Stroke.line).length :=
    Std.HashSet.size_ofList (h.imp beq_false_of_ne)
  rwa [List.length_map] at hsize

private theorem Surface.lines_add_arcs (s : Surface) : s.statistics.lines + s.statistics.arcs = s.statistics.strokes := by
  have hlength := s.strokes.length_eq_countP_add_countP (·.shape.isStraight)
  simp only [Bool.not_eq_true, Bool.decide_eq_false] at hlength
  exact hlength.symm

namespace Bench

/-- In every state of a session, its strokes are in the order of their lines. The line of a cut has the stroke that the
cut leaves when the commands in front of it have been executed, from the time that the cut itself is executed, and no
stroke before. A line without a cut has none. So the number of strokes is that of the straight and the round ones, that
of the lines that have a stroke, and that of the cuts that have been executed. -/
theorem strokes_by_line (setup : Setup) (surface : Surface) (text : String) (speed : Option Quantity) (scale : Float)
    (events : List Event) (alone : ∀ e ∈ events, e.opens = false) :
    let b := (start setup surface text speed scale).after events
    let cs := Program.commands text
    let counts := b.desk.surface.statistics
    ∃ p, b.desk.sessions = [⟨text, p⟩] ∧
      (b.desk.surface.strokes.map Stroke.line).Pairwise (· < ·) ∧
      (∀ line c, Program.commandAt? text line = some c → c.isCut = true → ∃ k stroke, cs[k]? = some c ∧
        (Pen.mk scale setup.widthFactor).stroke? (((Machine.powerOn scale).replay (cs.take k)).execute c).request =
          some stroke ∧
        b.desk.surface.ofLine line = if k < p.cursor then [stroke] else []) ∧
      (∀ line, (∀ c ∈ Program.commandAt? text line, c.isCut = false) → b.desk.surface.ofLine line = []) ∧
      counts.strokes = counts.lines + counts.arcs ∧ counts.strokes = counts.sourceLines ∧
      counts.strokes = (cs.take p.cursor).countP Command.isCut := by
  intro b cs counts
  obtain ⟨p, hp, hplaced, -, hascend⟩ := session_executes_prefix setup surface text speed scale events alone
  have hstrokes : b.desk.surface.strokes =
      (Machine.powerOn scale).strokesOf ⟨scale, setup.widthFactor⟩ (cs.take p.cursor) := hplaced.strokes_eq
  have hlines : (b.desk.surface.strokes.map Stroke.line).Pairwise (· < ·) := by
    rw [hstrokes]
    exact Machine.strokesOf_ascend (hascend.sublist ((List.take_sublist p.cursor cs).map Command.line))
  refine ⟨p, hp, hlines, fun line c hc hcut => ?_, fun line hnone => ?_, b.desk.surface.lines_add_arcs.symm,
    (Surface.sourceLines_eq hlines.nodup).symm, ?_⟩
  · obtain ⟨hmem, rfl⟩ := Program.commandAt?_eq_some.mp hc
    obtain ⟨k, hk⟩ := List.mem_iff_getElem?.mp hmem
    obtain ⟨stroke, hstroke⟩ := ((Machine.powerOn scale).replay (cs.take k)).exists_stroke?
      ⟨scale, setup.widthFactor⟩ hcut
    refine ⟨k, stroke, hk, hstroke, ?_⟩
    rw [Surface.ofLine, hstrokes]
    exact Machine.filter_strokesOf hascend hk hstroke p.cursor
  · rw [Surface.ofLine, hstrokes]
    apply Machine.filter_strokesOf_eq_nil
    rintro c hmem hcut rfl
    have hc := Program.commandAt?_eq_some.mpr ⟨List.mem_of_mem_take hmem, rfl⟩
    rw [hnone c hc] at hcut
    cases hcut
  · have hlength := congrArg List.length hstrokes
    have hcuts := congrArg List.length
      ((Machine.powerOn scale).strokesOf_lines ⟨scale, setup.widthFactor⟩ (cs.take p.cursor))
    rw [List.length_map, List.length_map, ← List.countP_eq_length_filter] at hcuts
    exact hlength.trans hcuts

/-- A run that is broken off by a step, a pause and a reset, and that stands between its two cuts in the end, with a
comment, a blank line and a change of the origin around them. -/
theorem strokes_by_line_interleaved :
    let text := "; edge\nG01 X1\n\nG92\nG02 X3 I1\nM02"
    let events : List Event := [.run 0, .advance 500, .step 0, .pause 0, .run 0, .runPending 9, .setSpeed 0 none,
      .reset 0, .step 0, .run 0, .advance 200]
    let b := (start ⟨.whole 1, 1.5, true⟩ (.ofSize (.whole 800) (.whole 600)) text (some (.whole 5)) 2).after events
    let cs := Program.commands text
    let counts := b.desk.surface.statistics
    (∀ e ∈ events, e.opens = false) ∧
    (b.desk.sessions.map fun session => session.playback.cursor) = [2] ∧
    (List.map (fun line => (b.desk.surface.ofLine line).length) [-1, 0, 1, 2, 3, 4, 5, 6]) =
      [0, 0, 1, 0, 0, 0, 0, 0] ∧
    ∃ p, b.desk.sessions = [⟨text, p⟩] ∧
      (b.desk.surface.strokes.map Stroke.line).Pairwise (· < ·) ∧
      (∀ line c, Program.commandAt? text line = some c → c.isCut = true → ∃ k stroke, cs[k]? = some c ∧
        (Pen.mk 2 1.5).stroke? (((Machine.powerOn 2).replay (cs.take k)).execute c).request = some stroke ∧
        b.desk.surface.ofLine line = if k < p.cursor then [stroke] else []) ∧
      (∀ line, (∀ c ∈ Program.commandAt? text line, c.isCut = false) → b.desk.surface.ofLine line = []) ∧
      counts.strokes = counts.lines + counts.arcs ∧ counts.strokes = counts.sourceLines ∧
      counts.strokes = (cs.take p.cursor).countP Command.isCut := by
  refine ⟨by decide, by decide +kernel, by decide +kernel, ?_⟩
  exact strokes_by_line ⟨.whole 1, 1.5, true⟩ (.ofSize (.whole 800) (.whole 600))
    "; edge\nG01 X1\n\nG92\nG02 X3 I1\nM02" (some (.whole 5)) 2 _ (by decide)

end Bench

end WireCut
