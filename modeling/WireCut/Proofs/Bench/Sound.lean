import WireCut.Proofs.Bench.Replace
import WireCut.Proofs.Geometry.Trace
import WireCut.Proofs.Program.Warning

/-! Soundness. Under the standard settings nothing breaks off, whatever the program text, the scale and the speed are
and whatever is done: every run of the clock comes to its end, and whatever can be asked in the state after it has an
answer. -/
namespace WireCut

def Event.resizes : Event → Bool
  | .view (.resize ..) => true
  | _ => false

def Run.reply (run : Run Desk WakeUp ArithmeticError) : Reply :=
  run.failure.elim (.calls run.calls) .failed

def Surface.Aimed (s : Surface) : Prop :=
  ∀ stroke ∈ s.strokes, stroke.shape.Aimed

/-- The angles of a circular cut are those of its start and its target seen from its center, and its radius is the length of
the offset of the center. -/
theorem Machine.execute_drawn {m : Machine} {c : Command} {r : Request} {shape : Shape}
    (hr : (m.execute c).request = some r) (hshape : r.shape? = some shape) : shape.Drawn := by
  unfold execute at hr
  cases hi : Instruction.ofCode? c.code with
  | none =>
    rw [hi] at hr
    cases hr
  | some instruction =>
    rw [hi] at hr
    cases instruction with
    | arc clockwise =>
      cases hr
      cases hshape
      exact ⟨⟨⟨_, _, rfl⟩, _, _, rfl⟩, _, _, rfl⟩
    | cut =>
      cases hr
      cases hshape
      trivial
    | finish =>
      cases hr
      cases hshape
    | _ => cases hr

namespace Surface

def size (s : Surface) : Quantity × Quantity :=
  (s.width, s.height)

theorem hasCenter_congr {s t : Surface} (h : s.size = t.size) : s.hasCenter = t.hasCenter := by
  obtain ⟨hwidth, hheight⟩ := Prod.ext_iff.mp h
  exact congrArg₂ (fun width height => width.halves && height.halves) hwidth hheight

private theorem size_render (s : Surface) (request : Option Request) : (s.render request).size = s.size := by
  unfold Surface.render
  split
  · rfl
  · split <;> rfl

theorem size_prepare (s : Surface) (pen : Pen) : (pen.prepare s).size = s.size := rfl

theorem size_act (s : Surface) (p : Playback) (a : Playback.Act) : (p.act s a).surface.size = s.size := by
  obtain ⟨c, -, heq⟩ | ⟨-, heq⟩ | ⟨_, _, _, -, heq⟩ := p.act_cases s a
  · rw [heq, Playback.executeCommand_eq]
    exact s.size_render _
  · rw [heq]
    exact s.size_prepare p.pen
  · rw [heq]

private theorem Aimed.draw {s : Surface} (h : s.Aimed) (line : Int) {shape : Shape} (hshape : shape.Aimed) :
    (s.draw line shape).Aimed := by
  intro stroke hstroke
  rw [strokes_draw] at hstroke
  obtain hold | hnew := List.mem_append.mp hstroke
  · exact h stroke hold
  · rw [List.mem_singleton.mp hnew]
    exact hshape

private theorem Aimed.render {s : Surface} (h : s.Aimed) (m : Machine) (c : Command) : (s.render (m.execute c).request).Aimed := by
  unfold Surface.render
  cases hr : (m.execute c).request with
  | none => exact h
  | some r =>
    dsimp only
    cases hshape : r.shape? with
    | none => exact h
    | some shape => exact h.draw r.line (Machine.execute_drawn hr hshape).aimed

private theorem aimed_ofSize (width height : Quantity) : (ofSize width height).Aimed :=
  nofun

private theorem aimed_prepare (s : Surface) (pen : Pen) : (pen.prepare s).Aimed :=
  nofun

private theorem Aimed.act {s : Surface} (h : s.Aimed) (p : Playback) (a : Playback.Act) : (p.act s a).surface.Aimed := by
  obtain ⟨c, -, heq⟩ | ⟨-, heq⟩ | ⟨_, _, _, -, heq⟩ := p.act_cases s a
  · rw [heq, Playback.executeCommand_eq]
    exact h.render p.machine c
  · rw [heq]
    exact aimed_prepare s p.pen
  · rw [heq]
    exact h

end Surface

namespace Bench

private theorem aimed_perform {b : Bench} (h : b.desk.surface.Aimed) (e : Event) : (b.perform e).1.desk.surface.Aimed := by
  refine desk_perform (P := fun desk => desk.surface.Aimed) b e (fun desk index session a _ _ hd => hd.act _ a) ?_ ?_ h
  · intro desk change hd
    rw [Surface.Aimed, Surface.strokes_view]
    exact hd
  · intro old text speed scale _ _
    rw [Desk.replace_eq, Session.create_eq]
    exact Surface.aimed_prepare _ _

/-- Only a change of the size changes the size. -/
theorem size_perform (b : Bench) {e : Event} (h : e.resizes = false) :
    (b.perform e).1.desk.surface.size = b.desk.surface.size := by
  let same (_ : Agenda WakeUp) (desk : Desk) : Prop := desk.surface.size = b.desk.surface.size
  refine invariant_perform (P := same) ?_ (fun _ _ _ hd => hd) b e ?_ rfl
  · intro agenda desk x rest _ hd
    obtain heq | ⟨session, -, -, heq⟩ := desk.react_world x.due x.task
    · rw [heq]
      exact hd
    · rw [heq]
      exact (Surface.size_act _ _ _).trans hd
  · intro next himm
    cases himm with
    | nothing => rfl
    | act _ index session a => exact Surface.size_act _ _ _
    | begin index session => exact Surface.size_act _ session.playback .run
    | replace old text speed scale =>
      change (b.desk.replace old text speed scale).surface.size = _
      rw [Desk.replace_eq, Session.create_eq]
      exact (Surface.size_prepare _ _).trans (Surface.size_prepare _ _)
    | view change =>
      cases change with
      | resize => cases h
      | _ => rfl

theorem size_after (b : Bench) {events : List Event} (h : ∀ e ∈ events, e.resizes = false) :
    (b.after events).desk.surface.size = b.desk.surface.size := by
  induction events generalizing b with
  | nil => rfl
  | cons e events ih =>
    exact (ih (b.perform e).1 fun x hx => h x (List.mem_cons_of_mem e hx)).trans
      (b.size_perform (h e List.mem_cons_self))

/-- Wake-ups of a desk whose sessions have intervals never break off, whatever the clock allows. -/
theorem drain_ok {b : Bench} (h : b.desk.Wired b.agenda.entries) (allowed : Int → Bool) (limit : Nat) :
    (Agenda.drain Desk.react allowed limit ⟨b.agenda, b.desk, 0, none⟩).failure = none := by
  refine Agenda.drain_completes (P := fun agenda desk => desk.Wired agenda.entries) ?_ limit _ h rfl
  intro agenda desk x rest he hd
  rw [he] at hd
  exact hd.react (agenda.taken x.due rest) rfl

theorem reply_runPending (b : Bench) (limit : Nat) :
    (b.perform (.runPending limit)).2 = (b.agenda.runPending Desk.react limit b.desk).reply := by
  simp only [perform]
  generalize b.agenda.runPending Desk.react limit b.desk = run
  obtain ⟨agenda, world, calls, failure⟩ := run
  cases failure <;> rfl

theorem reply_advance (b : Bench) (ms : Int) :
    (b.perform (.advance ms)).2 = (b.agenda.advance Desk.react b.budget ms b.desk).reply := by
  simp only [perform]
  generalize b.agenda.advance Desk.react b.budget ms b.desk = run
  obtain ⟨agenda, world, calls, failure⟩ := run
  cases failure <;> rfl

/-- No event breaks off. -/
private theorem perform_ok {b : Bench} (h : b.desk.Wired b.agenda.entries) (e : Event) (reason : ArithmeticError) :
    (b.perform e).2 ≠ .failed reason := by
  have hcalls {run : Run Desk WakeUp ArithmeticError} (hok : run.failure = none) : run.reply ≠ .failed reason := by
    simp [Run.reply, hok]
  cases e with
  | step index => cases hs : b.desk.sessions[index]? <;> simp [perform, hs]
  | run index => cases hs : b.desk.sessions[index]? <;> simp [perform, hs]
  | reset index => cases hs : b.desk.sessions[index]? <;> simp [perform, hs]
  | pause index => simp [perform]
  | setSpeed index speed => simp [perform]
  | replace old text speed scale => simp [perform]
  | view change => simp [perform]
  | runPending limit =>
    rw [reply_runPending]
    exact hcalls (drain_ok h _ limit)
  | advance ms =>
    rw [reply_advance, Agenda.advance_eq rfl (drain_ok h _ _)]
    exact hcalls (drain_ok h _ _)

/-- Time that moves forward leaves nothing behind: what is due by then has been called. -/
theorem advance_ahead {b : Bench} (h : b.desk.Wired b.agenda.entries) (hsorted : Agenda.Sorted b.agenda.entries)
    (ms : Int) {x : Entry WakeUp} (hx : x ∈ (b.perform (.advance ms)).1.agenda.entries) :
    (b.perform (.advance ms)).1.agenda.now < x.due := by
  have hok := drain_ok h (fun due => decide (due ≤ b.agenda.now + ms)) b.budget
  have hnone := Desk.pays_react.exhausts b.budget _ (Nat.le_refl _) hok
  have hagenda : (b.perform (.advance ms)).1.agenda = (b.agenda.advance Desk.react b.budget ms b.desk).agenda := rfl
  have hlast := sorted_perform hsorted (.advance ms)
  rw [hagenda] at hx hlast ⊢
  rw [Agenda.advance_eq rfl hok] at hx hlast ⊢
  dsimp only at hx hlast ⊢
  obtain he | ⟨first, rest, he, hfirst⟩ := Agenda.fire_eq_none hnone
  · rw [he] at hx
    cases hx
  · have hlater : b.agenda.now + ms < first.due := Int.not_le.mp (of_decide_eq_false hfirst)
    rw [he] at hx hlast
    obtain rfl | hx := List.mem_cons.mp hx
    · exact hlater
    · exact Int.lt_of_lt_of_le hlater ((List.pairwise_cons.mp hlast).1 x hx)

/-- Under the standard settings nothing breaks off. Whatever texts, speeds and scales are opened and whatever events
follow, no event fails, and time that moves forward calls all that falls due. In every state each session has an
interval, the drawing has a box, and each stroke can be traced in pieces of five degrees, and of one as for its box,
with sines and cosines of finite angles only. The surface has a center for as long as its size is kept, and in every
text the runs of each block have a first character and are found by the search. -/
theorem nothing_breaks_off (preset : Preset) (followed : Bool) (events : List Event) :
    let settings := Settings.ofPreset preset
    let b := (ofSurface (settings.setup followed) settings.surface).after events
    (∀ e reason, (b.perform e).2 ≠ .failed reason) ∧
      (∀ ms, ∀ x ∈ (b.perform (.advance ms)).1.agenda.entries, (b.perform (.advance ms)).1.agenda.now < x.due) ∧
      (∀ session ∈ b.desk.sessions, ∃ ms, session.playback.interval = .ok ms) ∧
      (∃ box, b.desk.surface.bounds = .ok box) ∧
      (∀ stroke ∈ b.desk.surface.strokes, stroke.shape.Traceable 5 ∧ stroke.shape.Traceable 1) ∧
      ((∀ e ∈ events, e.resizes = false) → b.desk.surface.hasCenter = true) ∧
      ∀ text, ∀ block ∈ Program.blocks text, (∀ run ∈ block.code :: block.arguments, run ≠ []) ∧
        ∃ ws, Text.locate? (Text.trim block.line) block.code.length block.arguments = some ws := by
  intro settings b
  have hmin : (settings.setup followed).minimumSpeed = .whole 1 := Settings.minimumSpeed_ofPreset preset followed
  have hcenter : settings.surface.hasCenter = true := by cases preset <;> decide +kernel
  have hwired : b.desk.Wired b.agenda.entries := wired_after (wired_ofSurface _ settings.surface hmin) events
  have hsorted : Agenda.Sorted b.agenda.entries :=
    invariant_after (P := fun b => Agenda.Sorted b.agenda.entries) (fun _ e h => sorted_perform h e)
      (b := ofSurface (settings.setup followed) settings.surface) .nil events
  have haimed : b.desk.surface.Aimed :=
    invariant_after (P := fun b => b.desk.surface.Aimed) (fun _ e h => aimed_perform h e)
      (b := ofSurface (settings.setup followed) settings.surface) (Surface.aimed_ofSize _ _) events
  refine ⟨perform_ok hwired, fun ms x hx => advance_ahead hwired hsorted ms hx, fun session hsession => ?_, ?_, ?_, ?_, ?_⟩
  · obtain ⟨i, hi⟩ := List.mem_iff_getElem?.mp hsession
    exact hwired.interval_ok hi
  · exact Surface.bounds_ok fun stroke hstroke => (haimed stroke hstroke).traceable reaches_one
  · exact fun stroke hstroke => ⟨(haimed stroke hstroke).traceable reaches_five, (haimed stroke hstroke).traceable reaches_one⟩
  · intro kept
    exact (Surface.hasCenter_congr (size_after _ kept)).trans hcenter
  · intro text block hblock
    obtain ⟨hruns, -⟩ := Program.runs_of_mem_blocks hblock
    obtain ⟨ws, hfound, -⟩ := Program.Block.locate?_arguments hblock
    exact ⟨fun run hrun => (Text.isRun_of_mem_runs (hruns ▸ hrun)).nonempty, ws, hfound⟩

end Bench

end WireCut
