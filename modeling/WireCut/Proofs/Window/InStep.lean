import WireCut.Proofs.Bench.Sound
import WireCut.Proofs.Program.Source
import WireCut.Proofs.Window.Boxes
import WireCut.Window.Event

/-! A window in step with its current session: the editor has the text of the session, and the editor and the viewport
show the line that the session has marked. Every act of the session keeps the window in step, and so does the opening of
a new session. -/
namespace WireCut

namespace Text

private theorem length_lines (cs : List Char) : (lines cs).length = lineCount cs := by
  induction cs with
  | nil => rfl
  | cons c cs ih =>
    rw [lines, List.splitOn] at ih ⊢
    rw [List.splitOnP_cons_eq_if_modifyHead, lineCount, List.count_cons]
    split
    · rw [List.length_cons, ih, lineCount]
    · rw [List.length_modifyHead, ih, lineCount]

end Text

/-- The line of a command is one of its text. -/
theorem Program.line_of_mem_commands {text : String} {c : Command} (h : c ∈ commands text) :
    ∃ n : Nat, c.line = n ∧ n < Text.lineCount text.toList := by
  obtain ⟨n, line, hline, hc⟩ := mem_commands.mp h
  refine ⟨n, commandOf_line hc, ?_⟩
  rw [← Text.length_lines]
  exact (List.getElem?_eq_some_iff.mp hline).1

namespace Editor

structure Shows (e : Editor) (active : Int) (line : Option Int) : Prop where
  marked_eq : e.marked.map Int.ofNat = line.toList
  marked_lt : ∀ n ∈ e.marked, n < e.lineCount
  active_eq : active = line.getD (-1)

def applyMarks (e : Editor) (active : Int) (marks : List MarkChange) : Editor × Int :=
  marks.foldl (fun shown change => ((shown.1.applyMark change).1, (shown.1.applyMark change).2.getD shown.2)) (e, active)

private theorem text_applyMark (e : Editor) (change : MarkChange) : (e.applyMark change).1.text = e.text := by
  cases change with
  | mark line =>
    rw [applyMark]
    split <;> rfl
  | _ => rfl

theorem text_applyMarks (e : Editor) (active : Int) (marks : List MarkChange) :
    (e.applyMarks active marks).1.text = e.text := by
  induction marks generalizing e active with
  | nil => rfl
  | cons change marks ih => exact (ih _ _).trans (e.text_applyMark change)

theorem shows_unmarkAll (e : Editor) (active : Int) :
    (e.applyMarks active [.unmarkAll]).1.Shows (e.applyMarks active [.unmarkAll]).2 none :=
  ⟨rfl, nofun, rfl⟩

/-- A line of the text that is marked while no other is becomes the active one. -/
private theorem shows_mark {e : Editor} (h : e.marked = []) (active : Int) {n : Nat} (hn : n < e.lineCount) :
    (e.applyMarks active [.mark n]).1.Shows (e.applyMarks active [.mark n]).2 (some n) := by
  have hcond : (decide (0 ≤ (n : Int)) && decide ((n : Int) < e.lineCount)) = true := by
    simpa using hn
  have hshown : e.applyMarks active [.mark n] =
      (refresh { e with marked := [n], anchor := lineStart n e.text.toList, position := lineStart n e.text.toList }, ↑n) := by
    rw [applyMarks, List.foldl_cons, List.foldl_nil, applyMark, if_pos hcond, h]
    rfl
  rw [hshown]
  refine ⟨rfl, fun m hm => ?_, rfl⟩
  rw [List.mem_singleton.mp hm]
  exact hn

end Editor

/-- The changes of marks on the way to a line take an editor from the marked line to the new one. -/
theorem Editor.Shows.follow {e : Editor} {active : Int} {p : Playback} (h : e.Shows active p.marked)
    (hfollowed : p.setup.followed = true) {n : Nat} (hn : n < e.lineCount) :
    (e.applyMarks active (p.follow n).2).1.Shows (e.applyMarks active (p.follow n).2).2 (some n) := by
  rw [Playback.follow_snd, if_pos hfollowed]
  have hmarked := h.marked_eq
  cases hold : p.marked with
  | none =>
    rw [hold] at hmarked
    exact shows_mark (List.map_eq_nil_iff.mp hmarked) active hn
  | some k =>
    rw [hold] at hmarked
    -- the line that was marked is released first
    have hreleased : (e.applyMark (.unmark k)).1.marked = [] := by
      refine List.filter_eq_nil_iff.mpr fun m hm => ?_
      have hmem : Int.ofNat m ∈ e.marked.map Int.ofNat := List.mem_map_of_mem hm
      rw [hmarked] at hmem
      simpa using hmem
    exact shows_mark (e := (e.applyMark (.unmark k)).1) hreleased active hn

namespace Window

structure InStep (w : Window) (older : List Session) (session : Session) : Prop where
  sessions_eq : w.sessions = older ++ [session]
  text_eq : session.text = w.editor.text
  program_eq : session.playback.program = (Program.commands session.text).toArray
  followed : session.playback.setup.followed = true
  shown : w.editor.Shows w.viewport.activeLine session.playback.marked
  stopped : ∀ old ∈ older, old.playback.mode ≠ .running

/-- A window in which a new session can be opened: the speed in the box is within the range of floats, and the surface
has a center. -/
structure Usable (least : Quantity) (w : Window) : Prop where
  box : w.speedBox.Within least
  center : w.surface.hasCenter = true

theorem refresh_frame (w : Window) : ∃ status statistics, w.refresh = { w with status, statistics } := by
  rw [refresh]
  split
  · exact ⟨w.status, w.statistics, rfl⟩
  · exact ⟨_, _, rfl⟩

private theorem foldl_print_frame (lines : List String) (w : Window) : ∃ console, lines.foldl print w = { w with console } := by
  induction lines generalizing w with
  | nil => exact ⟨w.console, rfl⟩
  | cons line lines ih =>
    obtain ⟨console, heq⟩ := ih (w.print line)
    exact ⟨console, heq⟩

private theorem follow_frame (w : Window) (line : Int) :
    ∃ console asked, w.follow line = { w with viewport := { w.viewport with activeLine := line }, console, asked } := by
  rw [follow]
  dsimp only
  split
  · obtain ⟨console, heq⟩ := foldl_print_frame
      (findings { w with viewport := { w.viewport with activeLine := line } } line)
      { w with viewport := { w.viewport with activeLine := line } }
    rw [heq]
    exact ⟨_, _, rfl⟩
  · exact ⟨_, _, rfl⟩

private theorem applyMark_frame (w : Window) (change : MarkChange) :
    ∃ console asked, w.applyMark change =
      { w with
        editor := (w.editor.applyMark change).1
        viewport := { w.viewport with activeLine := (w.editor.applyMark change).2.getD w.viewport.activeLine }
        console, asked } := by
  rw [applyMark]
  generalize w.editor.applyMark change = applied
  obtain ⟨editor, _ | line⟩ := applied
  · exact ⟨_, _, rfl⟩
  · exact follow_frame { w with editor } line

theorem applyMarks_frame (marks : List MarkChange) (w : Window) :
    ∃ console asked, marks.foldl applyMark w =
      { w with
        editor := (w.editor.applyMarks w.viewport.activeLine marks).1
        viewport := { w.viewport with activeLine := (w.editor.applyMarks w.viewport.activeLine marks).2 }
        console, asked } := by
  induction marks generalizing w with
  | nil => exact ⟨_, _, rfl⟩
  | cons change marks ih =>
    obtain ⟨console, asked, hchange⟩ := w.applyMark_frame change
    obtain ⟨console', asked', hmarks⟩ := ih (w.applyMark change)
    rw [List.foldl_cons, hmarks, hchange]
    exact ⟨console', asked', rfl⟩

theorem modify_last {α : Type} (change : α → α) (front : List α) (last : α) :
    (front ++ [last]).modify front.length change = front ++ [change last] := by
  induction front with
  | nil => rfl
  | cons a front ih => exact congrArg (a :: ·) ih

namespace InStep
variable {w v : Window} {older : List Session} {session : Session}

/-- Only the sessions, the editor and the active line matter. -/
theorem congr (h : w.InStep older session) (hsessions : v.sessions = w.sessions) (htext : v.editor.text = w.editor.text)
    (hmarked : v.editor.marked = w.editor.marked) (hactive : v.viewport.activeLine = w.viewport.activeLine) :
    v.InStep older session := by
  refine ⟨hsessions.trans h.sessions_eq, h.text_eq.trans htext.symm, h.program_eq, h.followed, ⟨?_, ?_, ?_⟩, h.stopped⟩
  · rw [hmarked]
    exact h.shown.marked_eq
  · rw [hmarked, Editor.lineCount, htext]
    exact h.shown.marked_lt
  · rw [hactive]
    exact h.shown.active_eq

theorem session? (h : w.InStep older session) : w.session? = some session := by
  rw [Window.session?, h.sessions_eq, List.getLast?_append_cons, List.getLast?_singleton]

/-- A change of the current session is a change of the last one. -/
theorem modify_current (h : w.InStep older session) (change : Session → Session) :
    w.sessions.modify w.current change = older ++ [change session] := by
  rw [current, h.sessions_eq, List.length_append, List.length_singleton, Nat.add_sub_cancel]
  exact modify_last change older session

/-- A change of the playback that is not seen keeps the window in step. -/
theorem update (h : w.InStep older session) (change : Playback → Playback)
    (hprogram : (change session.playback).program = session.playback.program)
    (hsetup : (change session.playback).setup = session.playback.setup)
    (hmarked : (change session.playback).marked = session.playback.marked) :
    (w.update change).InStep older { session with playback := change session.playback } := by
  refine ⟨h.modify_current _, h.text_eq, hprogram.trans h.program_eq, ?_, ?_, h.stopped⟩
  · rw [hsetup]
    exact h.followed
  · rw [hmarked]
    exact h.shown

end InStep

end Window

end WireCut
