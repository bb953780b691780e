import WireCut.Proofs.Bench.Place

/-! The log of a session over all its executions. A reset begins a new execution but keeps the log, so that the log
holds the warnings about the text and the reports of every execution, each as far as it went. -/
namespace WireCut

def Program.reports (scale : Float) (cs : List Command) (n : Nat) : List Diagnostic :=
  (Machine.powerOn scale).reportsOf (cs.take n)

namespace Playback

/-- A playback whose log holds some older diagnostics and the reports of its current execution. -/
def Logs (scale : Float) (cs : List Command) (older : List Diagnostic) (p : Playback) : Prop :=
  p.log = some (older ++ Program.reports scale cs p.cursor).reverse

namespace Logs
variable {setup : Setup} {scale : Float} {cs : List Command} {older : List Diagnostic} {p : Playback} {s : Surface}
variable {marks : List MarkChange}

private theorem executeCommand (h : p.Logs scale cs older) (hp : Placed setup scale cs p s marks) {c : Command}
    (hc : p.program[p.cursor]? = some c) : (p.executeCommand s c).playback.Logs scale cs older := by
  obtain ⟨-, htake⟩ := hp.take_next hc
  have hreports : Program.reports scale cs (p.cursor + 1) =
      Program.reports scale cs p.cursor ++ (p.machine.execute c).report.toList := by
    rw [Program.reports, htake, Machine.reportsOf_concat, hp.execute_eq c]
    rfl
  have hreverse (d : Option Diagnostic) : d.toList.reverse = d.toList := by cases d <;> rfl
  rw [Logs, executeCommand_cursor, hreports, ← List.append_assoc, List.reverse_append, hreverse, executeCommand_eq,
    settle_log, executed_log, h]
  rfl

private theorem act (h : p.Logs scale cs older) (hp : Placed setup scale cs p s marks) {a : Act} (ha : a ≠ .reset) :
    (p.act s a).playback.Logs scale cs older := by
  rcases p.act_cases s a with ⟨c, hc, heq⟩ | ⟨hreset, -⟩ | ⟨speed, mode, generation, -, heq⟩
  · rw [heq]
    exact h.executeCommand hp hc
  · exact absurd hreset ha
  · rw [heq]
    exact h

/-- What the execution has reported becomes older when it is left. -/
private theorem reset (h : p.Logs scale cs older) (s : Surface) :
    (p.reset s).playback.Logs scale cs (older ++ Program.reports scale cs p.cursor) := by
  have hnone : Program.reports scale cs (p.reset s).playback.cursor = [] := rfl
  rw [Logs, hnone, List.append_nil]
  exact h

end Logs

end Playback

namespace Bench

def rewound (b : Bench) : Event → List Nat
  | .reset index => (b.desk.sessions[index]?.map fun session => session.playback.cursor).toList
  | _ => []

/-- How far the sessions had come each time that one of them was sent back to its start. -/
def rewinds (b : Bench) : List Event → List Nat
  | [] => []
  | e :: events => b.rewound e ++ (b.perform e).1.rewinds events

private theorem rewound_of_not_resets (b : Bench) {e : Event} (h : e.resets = false) : b.rewound e = [] := by
  cases e with
  | reset index => cases h
  | _ => rfl

theorem rewinds_of_not_resets (b : Bench) (events : List Event) (h : ∀ e ∈ events, e.resets = false) :
    b.rewinds events = [] := by
  induction events generalizing b with
  | nil => rfl
  | cons e events ih =>
    rw [rewinds, rewound_of_not_resets b (h e List.mem_cons_self),
      ih (b.perform e).1 fun x hx => h x (List.mem_cons_of_mem e hx)]
    rfl

section
variable {setup : Setup} {scale : Float} {cs : List Command} {older : List Diagnostic} {text : String}

/-- An event keeps the log of the only session, up to what has been left behind by a reset. -/
private theorem logs_perform {b : Bench} {p : Playback} (hb : b.desk.sessions = [⟨text, p⟩])
    (hp : Playback.Placed setup scale cs p b.desk.surface b.desk.marks) (h : p.Logs scale cs older) (e : Event)
    (alone : e.opens = false) :
    ∃ q, (b.perform e).1.desk.sessions = [⟨text, q⟩] ∧
      Playback.Placed setup scale cs q (b.perform e).1.desk.surface (b.perform e).1.desk.marks ∧
      q.Logs scale cs (older ++ (b.rewound e).flatMap (Program.reports scale cs)) := by
  cases hr : e.resets with
  | false =>
    rw [rewound_of_not_resets b hr, List.flatMap_nil, List.append_nil]
    let P (q : Playback) (s : Surface) (marks : List MarkChange) : Prop :=
      Playback.Placed setup scale cs q s marks ∧ q.Logs scale cs older
    exact alone_after (P := P) (R := False) (fun q s _ a ha h => ⟨h.1.act a, h.2.act h.1 ha⟩)
      (fun _ _ _ change h => ⟨h.1.view change, h.2⟩) b ⟨text, p⟩ hb ⟨hp, h⟩ [e]
      (fun x hx => by rwa [List.mem_singleton.mp hx]) fun x hx hreset => by
        rw [List.mem_singleton.mp hx, hr] at hreset
        cases hreset
  | true =>
    cases e with
    | reset index =>
      cases index with
      | zero =>
        have hrewound : b.rewound (.reset 0) = [p.cursor] := by simp [rewound, hb]
        have hperform : (b.perform (.reset 0)).1.desk = b.desk.settle 0 ⟨text, p⟩ (p.reset b.desk.surface) := by
          simp [perform, hb]
        rw [hrewound, hperform, List.flatMap_singleton]
        exact ⟨(p.reset b.desk.surface).playback, by simp [Desk.settle, hb], hp.reset, h.reset b.desk.surface⟩
      | succ index =>
        have hrewound : b.rewound (.reset (index + 1)) = [] := by simp [rewound, hb]
        have hperform : (b.perform (.reset (index + 1))).1 = b := by simp [perform, hb]
        rw [hrewound, hperform, List.flatMap_nil, List.append_nil]
        exact ⟨p, hb, hp, h⟩
    | _ => cases hr

private theorem logs_after {b : Bench} {p : Playback} (hb : b.desk.sessions = [⟨text, p⟩])
    (hp : Playback.Placed setup scale cs p b.desk.surface b.desk.marks) (h : p.Logs scale cs older)
    (events : List Event) (alone : ∀ e ∈ events, e.opens = false) :
    ∃ q, (b.after events).desk.sessions = [⟨text, q⟩] ∧
      Playback.Placed setup scale cs q (b.after events).desk.surface (b.after events).desk.marks ∧
      q.Logs scale cs (older ++ (b.rewinds events).flatMap (Program.reports scale cs)) := by
  induction events generalizing b p older with
  | nil =>
    rw [rewinds, List.flatMap_nil, List.append_nil]
    exact ⟨p, hb, hp, h⟩
  | cons e events ih =>
    obtain ⟨q, hq, hplaced, hlogs⟩ := logs_perform hb hp h e (alone e List.mem_cons_self)
    rw [rewinds, List.flatMap_append, ← List.append_assoc]
    exact ih hq hplaced hlogs fun x hx => alone x (List.mem_cons_of_mem e hx)

end

/-- The log of a session, in every state that it can come to. -/
theorem logs_of_start (setup : Setup) (surface : Surface) (text : String) (speed : Option Quantity) (scale : Float)
    (events : List Event) (alone : ∀ e ∈ events, e.opens = false) :
    let fresh := start setup surface text speed scale
    ∃ p, (fresh.after events).desk.sessions = [⟨text, p⟩] ∧
      Playback.Placed setup scale (Program.commands text) p (fresh.after events).desk.surface
        (fresh.after events).desk.marks ∧
      p.Logs scale (Program.commands text) (Program.warnings text ++
        (fresh.rewinds events).flatMap (Program.reports scale (Program.commands text))) := by
  intro fresh
  have hplaced := placed_start setup surface text speed scale
  refine logs_after (p := .fresh setup text speed scale) ?_ hplaced ?_ events alone
  · rw [start_desk]
  · exact congrArg (fun log => some log.reverse) (List.append_nil (Program.warnings text)).symm

/-- The diagnostics of a session are the warnings about its text, the reports of every execution that a reset has
left, and those of the current one. So they are those of one execution exactly if no execution that was left had
anything to report. -/
theorem diagnostics_of_executions (setup : Setup) (surface : Surface) (text : String) (speed : Option Quantity)
    (scale : Float) (events : List Event) (alone : ∀ e ∈ events, e.opens = false) :
    let fresh := start setup surface text speed scale
    let reports := Program.reports scale (Program.commands text)
    ∃ p, (fresh.after events).desk.sessions = [⟨text, p⟩] ∧
      p.diagnostics =
        Diagnostic.sorted (Program.warnings text ++ (fresh.rewinds events).flatMap reports ++ reports p.cursor) ∧
      (p.diagnostics.Perm (Program.warnings text ++ reports p.cursor) ↔
        ∀ n ∈ fresh.rewinds events, reports n = []) := by
  intro fresh reports
  obtain ⟨p, hp, -, hlogs⟩ := logs_of_start setup surface text speed scale events alone
  have hdiagnostics : p.diagnostics =
      Diagnostic.sorted (Program.warnings text ++ (fresh.rewinds events).flatMap reports ++ reports p.cursor) := by
    rw [Playback.diagnostics, hlogs, Option.getD_some, List.reverse_reverse]
  have hperm : p.diagnostics.Perm
      (Program.warnings text ++ (fresh.rewinds events).flatMap reports ++ reports p.cursor) := by
    rw [hdiagnostics]
    exact List.mergeSort_perm _ _
  refine ⟨p, hp, hdiagnostics, ?_, ?_⟩
  · intro honce
    have hlength := honce.length_eq
    rw [hperm.length_eq, List.length_append, List.length_append, List.length_append] at hlength
    have hnil : (fresh.rewinds events).flatMap reports = [] := List.length_eq_zero_iff.mp (by omega)
    exact List.flatMap_eq_nil_iff.mp hnil
  · intro hnone
    rw [List.flatMap_eq_nil_iff.mpr hnone, List.append_nil] at hperm
    exact hperm

/-- A parameter without a number and an unknown code, in a program that is executed by steps and then by a run. -/
theorem diagnostics_of_executions_twice :
    let text := "G01 X1 Y\nG99\nM02"
    let events : List Event := [.step 0, .step 0, .reset 0, .run 0, .advance 1000]
    let fresh := start ⟨.whole 1, 1.5, true⟩ (.ofSize (.whole 800) (.whole 600)) text (some (.whole 5)) 1
    let reports := Program.reports 1 (Program.commands text)
    (∀ e ∈ events, e.opens = false) ∧ fresh.rewinds events = [2] ∧
    (reports 2).map Diagnostic.message = ["Unsupported code: G99"] ∧
    ((fresh.after events).desk.sessions.map fun session => (session.playback.log.getD []).map Diagnostic.kind) =
      [[.meaning, .meaning, .spelling]] ∧
    ∃ p, (fresh.after events).desk.sessions = [⟨text, p⟩] ∧
      p.diagnostics =
        Diagnostic.sorted (Program.warnings text ++ (fresh.rewinds events).flatMap reports ++ reports p.cursor) ∧
      (p.diagnostics.Perm (Program.warnings text ++ reports p.cursor) ↔
        ∀ n ∈ fresh.rewinds events, reports n = []) := by
  refine ⟨by decide, by decide +kernel, by decide +kernel, by decide +kernel, ?_⟩
  exact diagnostics_of_executions ⟨.whole 1, 1.5, true⟩ (.ofSize (.whole 800) (.whole 600)) "G01 X1 Y\nG99\nM02"
    (some (.whole 5)) 1 _ (by decide)

/-- What an execution has reported is still there after a reset, when nothing is executed, and twice after another
execution. -/
theorem diagnostics_outlive_reset :
    let unknown : Diagnostic := ⟨0, 0, 3, "Unsupported code: G99", .meaning, .warning⟩
    let fresh := start ⟨.whole 1, 1.5, false⟩ (.ofSize (.whole 800) (.whole 600)) "G99" none 1
    let kept (events : List Event) := (fresh.after events).desk.sessions.map fun session =>
      (session.playback.cursor, session.playback.log)
    Program.warnings "G99" = [] ∧ Program.reports 1 (Program.commands "G99") 1 = [unknown] ∧
    kept [.step 0, .reset 0] = [(0, some [unknown])] ∧
    kept [.step 0, .reset 0, .step 0] = [(1, some [unknown, unknown])] ∧
    ∃ p, (fresh.after [.step 0, .reset 0]).desk.sessions = [⟨"G99", p⟩] ∧ p.diagnostics = [unknown] ∧
      ¬ p.diagnostics.Perm (Program.warnings "G99" ++ Program.reports 1 (Program.commands "G99") p.cursor) := by
  intro unknown fresh kept
  have hkept : kept [.step 0, .reset 0] = [(0, some [unknown])] := by decide +kernel
  refine ⟨by decide +kernel, by decide +kernel, hkept, by decide +kernel, ?_⟩
  obtain ⟨p, hp, -⟩ := logs_of_start ⟨.whole 1, 1.5, false⟩ (.ofSize (.whole 800) (.whole 600)) "G99" none 1
    [.step 0, .reset 0] (by decide)
  have hlog : p.cursor = 0 ∧ p.log = some [unknown] := by
    simp only [kept, fresh, hp, List.map_singleton, List.cons.injEq, and_true, Prod.mk.injEq] at hkept
    exact hkept
  have hdiagnostics : p.diagnostics = [unknown] := by simp [Playback.diagnostics, Diagnostic.sorted, hlog.2]
  refine ⟨p, hp, hdiagnostics, ?_⟩
  rw [hdiagnostics, hlog.1]
  exact by decide +kernel

end Bench

end WireCut
