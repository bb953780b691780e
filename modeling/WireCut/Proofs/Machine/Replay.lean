import WireCut.Surface.Pen
import WireCut.Machine.Execute

/-! Replay of a list of commands: the machine at its end, and what each command does on the way. A machine
that has executed a program is compared with a replay, which knows no sessions, runs or wake-ups. -/
namespace WireCut

def Command.isCut (c : Command) : Bool :=
  c.code = "G01" || c.code = "G02" || c.code = "G03"

def Pen.stroke? (pen : Pen) (request : Option Request) : Option Stroke :=
  request.bind fun r => r.shape?.map fun shape => ⟨r.line, pen.width, shape⟩

namespace Machine

/-- The machine after a list of commands. The cursor stays where it is. -/
def replay (m : Machine) (cs : List Command) : Machine :=
  cs.foldl (fun m c => (m.execute c).machine) m

def executeAll (m : Machine) : List Command → List Executed
  | [] => []
  | c :: cs => m.execute c :: executeAll (m.execute c).machine cs

def strokesOf (m : Machine) (pen : Pen) (cs : List Command) : List Stroke :=
  (m.executeAll cs).filterMap fun done => pen.stroke? done.request

def reportsOf (m : Machine) (cs : List Command) : List Diagnostic :=
  (m.executeAll cs).filterMap Executed.report

theorem replay_concat (m : Machine) (cs : List Command) (c : Command) :
    m.replay (cs ++ [c]) = ((m.replay cs).execute c).machine := by
  simp only [replay, List.foldl_append, List.foldl_cons, List.foldl_nil]

private theorem length_executeAll (m : Machine) (cs : List Command) : (m.executeAll cs).length = cs.length := by
  induction cs generalizing m with
  | nil => rfl
  | cons c cs ih => exact congrArg Nat.succ (ih (m.execute c).machine)

theorem length_strokesOf_le (m : Machine) (pen : Pen) (cs : List Command) : (m.strokesOf pen cs).length ≤ cs.length :=
  Nat.le_trans (List.length_filterMap_le _ _) (Nat.le_of_eq (m.length_executeAll cs))

private theorem executeAll_concat (m : Machine) (cs : List Command) (c : Command) :
    m.executeAll (cs ++ [c]) = m.executeAll cs ++ [(m.replay cs).execute c] := by
  induction cs generalizing m with
  | nil => rfl
  | cons d cs ih =>
    rw [List.cons_append, executeAll, ih, executeAll, List.cons_append]
    rfl

/-- One more command adds what it leaves to what the others have left. -/
theorem filterMap_executeAll_concat {α : Type} (f : Executed → Option α) (m : Machine) (cs : List Command)
    (c : Command) :
    (m.executeAll (cs ++ [c])).filterMap f =
      (m.executeAll cs).filterMap f ++ (f ((m.replay cs).execute c)).toList := by
  rw [executeAll_concat, List.filterMap_append]
  cases h : f ((m.replay cs).execute c) <;> simp [h]

theorem strokesOf_concat (m : Machine) (pen : Pen) (cs : List Command) (c : Command) :
    m.strokesOf pen (cs ++ [c]) =
      m.strokesOf pen cs ++ (pen.stroke? ((m.replay cs).execute c).request).toList :=
  filterMap_executeAll_concat _ m cs c

theorem reportsOf_concat (m : Machine) (cs : List Command) (c : Command) :
    m.reportsOf (cs ++ [c]) = m.reportsOf cs ++ ((m.replay cs).execute c).report.toList :=
  filterMap_executeAll_concat _ m cs c

/-- What a command does is decided by the commands in front of it. -/
theorem getElem?_executeAll (m : Machine) (cs : List Command) (k : Nat) :
    (m.executeAll cs)[k]? = cs[k]?.map fun c => (m.replay (cs.take k)).execute c := by
  induction cs generalizing m k with
  | nil => rfl
  | cons c cs ih =>
    cases k with
    | zero => rfl
    | succ k =>
      rw [executeAll, List.getElem?_cons_succ, List.getElem?_cons_succ, List.take_succ_cons]
      exact ih (m.execute c).machine k

theorem mem_strokesOf {m : Machine} {pen : Pen} {cs : List Command} {stroke : Stroke} :
    stroke ∈ m.strokesOf pen cs ↔ ∃ k c, cs[k]? = some c ∧
      pen.stroke? ((m.replay (cs.take k)).execute c).request = some stroke := by
  rw [strokesOf, List.mem_filterMap]
  constructor
  · rintro ⟨done, hdone, hstroke⟩
    obtain ⟨k, hk⟩ := List.mem_iff_getElem?.mp hdone
    rw [getElem?_executeAll] at hk
    obtain ⟨c, hc, rfl⟩ := Option.map_eq_some_iff.mp hk
    exact ⟨k, c, hc, hstroke⟩
  · rintro ⟨k, c, hc, hstroke⟩
    refine ⟨_, List.mem_iff_getElem?.mpr ⟨k, ?_⟩, hstroke⟩
    rw [getElem?_executeAll, hc]
    rfl

/-- No instruction reads or moves the cursor. -/
theorem execute_withCursor (m : Machine) (n : Nat) (c : Command) :
    ({ m with cursor := n } : Machine).execute c =
      { m.execute c with machine := { (m.execute c).machine with cursor := n } } := by
  unfold execute
  cases Instruction.ofCode? c.code with
  | none => rfl
  | some instruction => cases instruction <;> rfl

theorem execute_scale (m : Machine) (c : Command) : (m.execute c).machine.scale = m.scale := by
  unfold execute
  cases Instruction.ofCode? c.code with
  | none => rfl
  | some instruction => cases instruction <;> rfl

theorem execute_cursor (m : Machine) (c : Command) : (m.execute c).machine.cursor = m.cursor := by
  unfold execute
  cases Instruction.ofCode? c.code with
  | none => rfl
  | some instruction => cases instruction <;> rfl

theorem replay_scale (m : Machine) (cs : List Command) : (m.replay cs).scale = m.scale := by
  induction cs generalizing m with
  | nil => rfl
  | cons c cs ih => exact (ih (m.execute c).machine).trans (m.execute_scale c)

theorem replay_cursor (m : Machine) (cs : List Command) : (m.replay cs).cursor = m.cursor := by
  induction cs generalizing m with
  | nil => rfl
  | cons c cs ih => exact (ih (m.execute c).machine).trans (m.execute_cursor c)

theorem isCut_iff (c : Command) :
    c.isCut = true ↔ Instruction.ofCode? c.code = some .cut ∨
      ∃ clockwise, Instruction.ofCode? c.code = some (.arc clockwise) := by
  unfold Command.isCut Instruction.ofCode?
  split <;> simp_all

theorem stroke?_line (m : Machine) (pen : Pen) (c : Command) :
    (pen.stroke? (m.execute c).request).map Stroke.line = if c.isCut then some c.line else none := by
  have hcut := isCut_iff c
  unfold execute
  cases hi : Instruction.ofCode? c.code with
  | none =>
    rw [hi] at hcut
    simp_all [Pen.stroke?]
  | some instruction =>
    rw [hi] at hcut
    cases instruction <;> simp_all [Pen.stroke?, perform, Request.shape?, Request.line]

/-- The strokes of a list of commands have the lines of its cuts, in order. -/
theorem strokesOf_lines (m : Machine) (pen : Pen) (cs : List Command) :
    (m.strokesOf pen cs).map Stroke.line = (cs.filter Command.isCut).map Command.line := by
  induction cs generalizing m with
  | nil => rfl
  | cons c cs ih =>
    have hline := m.stroke?_line pen c
    have htail := ih (m.execute c).machine
    rw [strokesOf] at htail
    rw [strokesOf, executeAll, List.filterMap_cons, List.filter_cons]
    cases hs : pen.stroke? (m.execute c).request <;> cases hc : c.isCut <;> simp_all

end Machine

namespace Surface

theorem strokes_render (s : Surface) (pen : Pen) (request : Option Request) (hw : s.lineWidth = pen.width) :
    (s.render request).strokes = s.strokes ++ (pen.stroke? request).toList := by
  cases request with
  | none => simp [render, Pen.stroke?]
  | some r =>
    cases hr : r.shape? with
    | none => simp [render, Pen.stroke?, hr]
    | some shape => simp [render, Pen.stroke?, hr, strokeOf, hw]

theorem lineWidth_render (s : Surface) (request : Option Request) :
    (s.render request).lineWidth = s.lineWidth := by
  unfold render
  split
  · rfl
  · split <;> rfl

end Surface

end WireCut
