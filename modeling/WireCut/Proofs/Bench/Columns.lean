import WireCut.Proofs.Bench.Each
import WireCut.Proofs.Program.Warning

/-! Columns of diagnostics. A warning about a parameter has the columns of the parameter in its line. A report of a
command counts its columns from where the command begins, so that its columns hold the command exactly when the line
is not indented. -/
namespace WireCut

def Diagnostic.excerpt (d : Diagnostic) (line : List Char) : List Char :=
  (line.take d.stop.toNat).drop d.start.toNat

namespace Text

/-- The text of a line stands behind its indentation. -/
private theorem trim_excerpt (line : List Char) :
    (line.take (indentation line + (trim line).length)).drop (indentation line) = trim line := by
  obtain ⟨before, behind, hline, hlength, -⟩ := trim_eq line
  rw [← hlength]
  generalize trim line = text at hline ⊢
  rw [hline, List.take_length_add_append, List.drop_left, List.take_left]

/-- The text of a line stands in its first columns exactly when the line does not begin with a blank. -/
private theorem take_eq_trim_iff {line : List Char} (h : trim line ≠ []) :
    line.take (trim line).length = trim line ↔ ∀ c ∈ line.head?, isBlank c = false := by
  obtain ⟨before, behind, hline, -, hbefore, -⟩ := trim_eq line
  have hends (c : Char) (hc : c ∈ (trim line).head?) : isBlank c = false := trim_ends (.inl hc)
  generalize trim line = text at h hline hends ⊢
  subst hline
  obtain ⟨first, rest, rfl⟩ := List.exists_cons_of_ne_nil h
  cases before with
  | nil => exact iff_of_true (by rw [List.nil_append, List.take_left]) hends
  | cons c before =>
    have hc := hbefore c List.mem_cons_self
    have hfirst := hends first rfl
    refine iff_of_false ?_ fun hsolid => ?_
    · intro heq
      obtain rfl : c = first := (List.cons.inj heq).1
      rw [hc] at hfirst
      cases hfirst
    · rw [hsolid c rfl] at hc
      cases hc

end Text

namespace Program
open Text

/-- A command comes from a line of the text, and holds the line without the blanks around it. -/
private theorem exists_line {text : String} {c : Command} (h : c ∈ commands text) :
    ∃ (number : Nat) (line : List Char), (lines text.toList)[number]? = some line ∧ c.line = number ∧
      c.raw.toList = trim line ∧ trim line ≠ [] := by
  obtain ⟨number, line, hline, hc⟩ := mem_commands.mp h
  rw [commandOf_eq] at hc
  obtain ⟨b, hb, rfl⟩ := Option.map_eq_some_iff.mp hc
  unfold block? at hb
  split at hb
  · cases hb
  · rename_i hruns
    split at hb
    · cases hb
    · cases hb
      refine ⟨number, line, hline, rfl, String.toList_ofList, fun hnil => ?_⟩
      rw [← runs_trim, hnil] at hruns
      cases hruns

end Program

namespace Machine

/-- A command reports that its code is unknown or that its cut is out of range. -/
private theorem report_cases {m : Machine} {c : Command} {d : Diagnostic} (h : (m.execute c).report = some d) :
    d = unsupported c ∨ d = outOfRange c := by
  unfold execute at h
  split at h
  · exact .inl (Option.some.inj h).symm
  · dsimp only at h
    split at h
    · cases h
    · exact .inr (Option.some.inj h).symm

end Machine

/-- The diagnostics of a session are warnings about its text, or reports of its commands. -/
def Session.Accounts (session : Session) : Prop :=
  session.playback.program = (Program.commands session.text).toArray ∧
    ∀ d ∈ session.playback.log.getD [], d ∈ Program.warnings session.text ∨
      ∃ c ∈ Program.commands session.text, d = Machine.unsupported c ∨ d = Machine.outOfRange c

private theorem Session.Accounts.act {session : Session} (h : session.Accounts) (s : Surface) (a : Playback.Act) :
    Accounts { session with playback := (session.playback.act s a).playback } := by
  refine ⟨(session.playback.act_program s a).trans h.1, ?_⟩
  obtain ⟨c, hc, heq⟩ | ⟨-, heq⟩ | ⟨_, _, _, -, heq⟩ := session.playback.act_cases s a
  · have hmem : c ∈ Program.commands session.text := by
      rw [h.1, List.getElem?_toArray] at hc
      exact List.mem_of_getElem? hc
    intro d hd
    rw [heq, Playback.executeCommand_eq, Playback.settle_log, Playback.executed_log] at hd
    have hold := h.2
    cases hlog : session.playback.log with
    | none =>
      rw [hlog] at hd
      cases hd
    | some log =>
      rw [hlog] at hd hold
      obtain hnew | hlogged := List.mem_append.mp hd
      · exact .inr ⟨c, hmem, Machine.report_cases (Option.mem_toList.mp hnew)⟩
      · exact hold d hlogged
  · rw [heq]
    exact h.2
  · rw [heq]
    exact h.2

namespace Bench
open Text

private theorem accounts_after (setup : Setup) (surface : Surface) (events : List Event) :
    ∀ session ∈ ((ofSurface setup surface).after events).desk.sessions, session.Accounts :=
  each_after (Q := Session.Accounts) (fun _ s a h => h.act s a)
    (fun _ _ _ _ => ⟨rfl, fun _ hd => .inl (List.mem_reverse.mp hd)⟩) setup surface events

/-- Every diagnostic of a session is a warning whose columns hold a parameter of its line, or the report of a command.
The columns of a report are those of the command counted from where the command begins: moved by the indentation of
the line they hold the command, and as they are they hold it exactly when the line does not begin with a blank. -/
theorem report_columns (setup : Setup) (surface : Surface) (events : List Event) (session : Session)
    (opened : session ∈ ((ofSurface setup surface).after events).desk.sessions) (d : Diagnostic)
    (listed : d ∈ session.playback.diagnostics) :
    ∃ (number : Nat) (line : List Char), (lines session.text.toList)[number]? = some line ∧ d.line = number ∧
      ((∃ w, Program.IsParameter w line ∧ d = Program.notANumberWarning number w ∧ d.excerpt line = w.chars) ∨
        ∃ c ∈ Program.commands session.text, (d = Machine.unsupported c ∨ d = Machine.outOfRange c) ∧
          c.line = number ∧ d.start = 0 ∧
          (line.take (indentation line + d.stop.toNat)).drop (indentation line) = c.raw.toList ∧
          (d.excerpt line = c.raw.toList ↔ ∀ first ∈ line.head?, isBlank first = false)) := by
  have haccounts := (accounts_after setup surface events session opened).2
  have hlog : d ∈ session.playback.log.getD [] := List.mem_reverse.mp (Diagnostic.mem_sorted.mp listed)
  obtain hwarning | ⟨c, hc, hd⟩ := haccounts d hlog
  · obtain ⟨number, line, w, hline, hw, -, rfl⟩ := Program.mem_warnings.mp hwarning
    exact ⟨number, line, hline, rfl, .inl ⟨w, hw, rfl, hw.stands.slice⟩⟩
  · obtain ⟨number, line, hline, hnumber, hraw, hne⟩ := Program.exists_line hc
    have hspan : d.line = c.line ∧ d.start = 0 ∧ d.stop.toNat = (trim line).length := by
      rw [← hraw, String.length_toList]
      obtain rfl | rfl := hd
      · exact ⟨rfl, rfl, rfl⟩
      · exact ⟨rfl, rfl, rfl⟩
    obtain ⟨hsame, hstart, hstop⟩ := hspan
    refine ⟨number, line, hline, hsame.trans hnumber, .inr ⟨c, hc, hd, hnumber, hstart, ?_, ?_⟩⟩
    · rw [hstop, hraw]
      exact trim_excerpt line
    · rw [Diagnostic.excerpt, hstart, hstop, hraw]
      exact take_eq_trim_iff hne

/-- An unknown code on a line that ends in blanks but does not begin with one: its columns hold the command. -/
theorem report_columns_flush :
    let report : Diagnostic := ⟨1, 0, 6, "Unsupported code: G99", .meaning, .warning⟩
    ∃ session ∈ ((ofSurface ⟨.whole 1, 1.5, false⟩ (.ofSize (.whole 800) (.whole 600))).after
        [.replace none "  G01 X1 Y\nG99 K1  " none 1, .step 0, .step 0]).desk.sessions,
      report ∈ session.playback.diagnostics ∧ report.excerpt "G99 K1  ".toList = "G99 K1".toList ∧
      ∃ (number : Nat) (line : List Char), (lines session.text.toList)[number]? = some line ∧ report.line = number ∧
        ((∃ w, Program.IsParameter w line ∧ report = Program.notANumberWarning number w ∧
            report.excerpt line = w.chars) ∨
          ∃ c ∈ Program.commands session.text, (report = Machine.unsupported c ∨ report = Machine.outOfRange c) ∧
            c.line = number ∧ report.start = 0 ∧
            (line.take (indentation line + report.stop.toNat)).drop (indentation line) = c.raw.toList ∧
            (report.excerpt line = c.raw.toList ↔ ∀ first ∈ line.head?, isBlank first = false)) := by
  intro report
  have hreported : ∃ session ∈ ((ofSurface ⟨.whole 1, 1.5, false⟩ (.ofSize (.whole 800) (.whole 600))).after
      [.replace none "  G01 X1 Y\nG99 K1  " none 1, .step 0, .step 0]).desk.sessions,
      report ∈ session.playback.log.getD [] := by decide +kernel
  obtain ⟨session, opened, hlogged⟩ := hreported
  have listed : report ∈ session.playback.diagnostics := Diagnostic.mem_sorted.mpr (List.mem_reverse.mpr hlogged)
  exact ⟨session, opened, listed, by decide, report_columns _ _ _ session opened report listed⟩

/-- The report of an indented command has the columns of its first characters. -/
theorem indented_report_misplaced :
    let report : Diagnostic := ⟨0, 0, 3, "Unsupported code: G99", .meaning, .warning⟩
    let b := (start ⟨.whole 1, 1.5, false⟩ (.ofSize (.whole 800) (.whole 600)) "  G99" none 1).after [.step 0]
    (b.desk.sessions.map fun session => session.playback.log) = [some [report]] ∧
      lines "  G99".toList = ["  G99".toList] ∧ (Program.commands "  G99").map Command.raw = ["G99"] ∧
      report.excerpt "  G99".toList = "  G".toList ∧ report.excerpt "  G99".toList ≠ "G99".toList := by
  decide +kernel

end Bench

end WireCut
