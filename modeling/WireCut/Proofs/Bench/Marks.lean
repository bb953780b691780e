import Mathlib.Data.Finset.Option
import WireCut.Proofs.Bench.Each
import WireCut.Proofs.Bench.Replace

/-! The lines that an editor marks. The sessions of a succession only send it changes, and yet the editor always marks
the line of the last command of the newest session, and no other line. -/
namespace WireCut

namespace MarkChange

def apply (lines : Finset Int) : MarkChange → Finset Int
  | .mark line => insert line lines
  | .unmark line => lines.erase line
  | .unmarkAll => ∅

/-- The lines that are marked after a list of changes, which come with the newest first. -/
def applyAll (changes : List MarkChange) (lines : Finset Int) : Finset Int :=
  changes.foldr (fun change lines => apply lines change) lines

private theorem applyAll_append (newer older : List MarkChange) (lines : Finset Int) :
    applyAll (newer ++ older) lines = applyAll newer (applyAll older lines) :=
  List.foldr_append

end MarkChange

namespace Playback

def lastLine (p : Playback) : Option Int :=
  if p.cursor = 0 then none else p.program[p.cursor - 1]?.map Command.line

/-- A playback that an editor follows and marks the last line of, and no other one. -/
structure Followed (p : Playback) (lines : Finset Int) : Prop where
  followed : p.setup.followed = true
  cursor_le : p.cursor ≤ p.program.size
  marked_eq : p.marked = p.lastLine
  lines_eq : lines = p.lastLine.toFinset

private theorem executeCommand_program (p : Playback) (s : Surface) (c : Command) :
    (p.executeCommand s c).playback.program = p.program := by
  rw [executeCommand_eq, settle_program, executed_program]

private theorem lastLine_executeCommand {p : Playback} {c : Command} (hc : p.program[p.cursor]? = some c) (s : Surface) :
    (p.executeCommand s c).playback.lastLine = some c.line := by
  rw [lastLine, executeCommand_cursor, if_neg (Nat.succ_ne_zero _), executeCommand_program, Nat.add_sub_cancel, hc]
  rfl

namespace Followed
variable {p : Playback} {lines : Finset Int}

/-- The line from before is released and the new one is marked. -/
private theorem executeCommand (h : p.Followed lines) {c : Command} (hc : p.program[p.cursor]? = some c) (s : Surface) :
    (p.executeCommand s c).playback.Followed (MarkChange.applyAll (p.executeCommand s c).marks.reverse lines) := by
  have hlast := lastLine_executeCommand hc s
  have hset : (p.record (p.machine.execute c).report).setup.followed = true := by
    rw [record_setup, h.followed]
  refine ⟨?_, ?_, ?_, ?_⟩
  · rw [executeCommand_eq, settle_setup, executed_setup, h.followed]
  · rw [executeCommand_cursor, executeCommand_program]
    exact (Array.getElem?_eq_some_iff.mp hc).1
  · rw [hlast, executeCommand_eq, settle_eq]
    split <;> simp [finish, executed, follow_fst, h.followed]
  · rw [hlast, executeCommand_eq, follow_snd, if_pos hset, record_marked, h.marked_eq, h.lines_eq]
    cases p.lastLine <;> simp [MarkChange.applyAll, MarkChange.apply]

private theorem reset (h : p.Followed lines) (s : Surface) :
    (p.reset s).playback.Followed (MarkChange.applyAll (p.reset s).marks.reverse lines) := by
  refine ⟨h.followed, Nat.zero_le _, rfl, ?_⟩
  rw [Playback.reset, if_pos h.followed]
  rfl

private theorem act (h : p.Followed lines) (s : Surface) (a : Act) :
    (p.act s a).playback.Followed (MarkChange.applyAll (p.act s a).marks.reverse lines) := by
  obtain ⟨c, hc, heq⟩ | ⟨-, heq⟩ | ⟨speed, mode, generation, -, heq⟩ := p.act_cases s a
  · rw [heq]
    exact h.executeCommand hc s
  · rw [heq]
    exact h.reset s
  · rw [heq]
    exact ⟨h.followed, h.cursor_le, h.marked_eq, h.lines_eq⟩

/-- The line is that of the command before the cursor. -/
private theorem cases {cs : List Command} (h : p.Followed lines) (hprogram : p.program = cs.toArray) :
    (p.cursor = 0 → lines = ∅ ∧ p.marked = none) ∧
      (0 < p.cursor → ∃ c, cs[p.cursor - 1]? = some c ∧ lines = {c.line} ∧ p.marked = some c.line) := by
  have hlast : p.lastLine = if p.cursor = 0 then none else cs[p.cursor - 1]?.map Command.line := by
    rw [lastLine, hprogram, List.getElem?_toArray]
  have hle : p.cursor ≤ cs.length := by simpa [hprogram] using h.cursor_le
  rw [h.marked_eq, h.lines_eq, hlast]
  constructor
  · intro hzero
    rw [if_pos hzero]
    exact ⟨rfl, rfl⟩
  · intro hpos
    have hlt : p.cursor - 1 < cs.length := by omega
    rw [if_neg (by omega), List.getElem?_eq_getElem hlt]
    exact ⟨_, rfl, rfl, rfl⟩

private theorem card_le_one (h : p.Followed lines) : lines.card ≤ 1 := by
  rw [h.lines_eq]
  cases p.lastLine <;> simp

end Followed

end Playback

namespace Session

def FollowedOn (lines : Finset Int) (session : Session) (_ : Surface) (marks : List MarkChange) : Prop :=
  session.playback.program = (Program.commands session.text).toArray ∧
    session.playback.Followed (MarkChange.applyAll marks lines)

private theorem followedOn_act (lines : Finset Int) (session : Session) (s : Surface) (marks : List MarkChange)
    (a : Playback.Act) (h : FollowedOn lines session s marks) :
    FollowedOn lines { session with playback := (session.playback.act s a).playback } (session.playback.act s a).surface
      ((session.playback.act s a).marks.reverse ++ marks) := by
  refine ⟨(session.playback.act_program s a).trans h.1, ?_⟩
  rw [MarkChange.applyAll_append]
  exact h.2.act s a

/-- A new session starts without a mark, whatever has been marked before it. -/
private theorem followedOn_create {setup : Setup} (hfollowed : setup.followed = true) (lines : Finset Int) (text : String)
    (speed : Option Quantity) (scale : Float) (s : Surface) (marks : List MarkChange) :
    let opening := Session.create setup text speed scale s
    FollowedOn lines opening.session opening.surface (opening.marks.reverse ++ marks) := by
  rw [Session.create_eq]
  refine ⟨rfl, hfollowed, Nat.zero_le _, rfl, ?_⟩
  rw [if_pos hfollowed, MarkChange.applyAll_append]
  rfl

end Session

namespace Bench

/-- However sessions act, wake up and replace one another, the editor marks the line of the last command that the newest
session has executed. It marks no line of a program that has been replaced, no second line, and nothing at all before
the first command. -/
theorem marks_follow_newest (minimumSpeed : Quantity) (widthFactor : Float) (surface : Surface) (lines : Finset Int)
    (text : String) (speed : Option Quantity) (scale : Float) (ts : List Turn) :
    let b := (start ⟨minimumSpeed, widthFactor, true⟩ surface text speed scale).turns ts
    let marked := MarkChange.applyAll b.desk.marks lines
    ∃ older session, b.desk.sessions = older ++ [session] ∧
      (session.playback.cursor = 0 → marked = ∅ ∧ session.playback.marked = none) ∧
      (0 < session.playback.cursor →
        ∃ c, (Program.commands session.text)[session.playback.cursor - 1]? = some c ∧ marked = {c.line} ∧
          session.playback.marked = some c.line) ∧
      marked.card ≤ 1 := by
  intro b marked
  have hfollowing : (⟨minimumSpeed, widthFactor, true⟩ : Setup).followed = true := rfl
  have hnew := Session.followedOn_create hfollowing lines
  obtain ⟨older, session, hsessions, ⟨hprogram, hfollowed⟩, -⟩ :=
    Succession.newestHas_turns (P := Session.FollowedOn lines) (Session.followedOn_act lines) (fun _ _ _ _ h => h)
      hnew surface text speed scale ts
  obtain ⟨before, after⟩ := hfollowed.cases hprogram
  exact ⟨older, session, hsessions, before, after, hfollowed.card_le_one⟩

end Bench

end WireCut
