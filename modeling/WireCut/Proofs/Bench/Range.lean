import WireCut.Proofs.Bench.Reports
import WireCut.Proofs.Bench.Sound
import WireCut.Proofs.Machine.Moderate
import WireCut.Proofs.Surface.Total
import WireCut.Viewport.Basic

/-! Drawings within the range of floats. A session that has reported no cut out of range has drawn finite shapes only. Their
lengths and corners, what is painted of them and their total length are never without a value, and they are finite as far as
the exact drawing fits. The drawing of a program of moderate numbers does. -/
namespace WireCut

open Binary64

namespace Machine
variable {m : Machine} {pen : Pen} {cs : List Command} {stroke : Stroke}

private theorem strokesOf_drawn (h : stroke ∈ m.strokesOf pen cs) : stroke.shape.Drawn := by
  obtain ⟨k, c, -, hstroke⟩ := mem_strokesOf.mp h
  obtain ⟨r, hr, hmap⟩ := Option.bind_eq_some_iff.mp hstroke
  obtain ⟨shape, hshape, rfl⟩ := Option.map_eq_some_iff.mp hmap
  exact execute_drawn hr hshape

/-- Without a report about a cut out of range every stroke is finite. -/
private theorem strokesOf_isFinite (hnone : ∀ d ∈ m.reportsOf cs, d.kind ≠ .motion) (h : stroke ∈ m.strokesOf pen cs) :
    stroke.shape.isFinite = true := by
  have hcount := m.countP_reportsOf pen cs
  rw [List.countP_eq_zero.mpr (by simpa using hnone)] at hcount
  have hzero : (m.strokesOf pen cs).countP (!·.shape.isFinite) = 0 := by omega
  simpa using List.countP_eq_zero.mp hzero stroke h

end Machine

private theorem Shape.points_of_pointsBy {s : Shape} {step : Quantity} {ps : List Point} (h : s.pointsBy step = .ok ps) :
    s.points step.nearest = .ok ps := by
  cases s with
  | line start stop => exact h
  | arc a =>
    rw [pointsBy, Arc.pointsBy] at h
    split at h
    · cases h
    · exact h

private theorem Viewport.mem_outlineCalls {width : Float} {shape : Shape} {ps : List Point} {x y : Float}
    (h : .vertex x y ∈ outlineCalls width shape ps) : ⟨x, y⟩ ∈ ps := by
  unfold outlineCalls at h
  split at h
  · cases h
  · split at h <;> simp_all
  · simp only [List.cons_append, List.mem_cons, reduceCtorEq, List.mem_append, List.mem_map, List.not_mem_nil, or_false,
      false_or] at h
    obtain ⟨p, hp, heq⟩ := h
    cases heq
    exact hp

/-- What is painted of a stroke has its vertices at the corners of the stroke. -/
private theorem Viewport.vertex_mem_points {v : Viewport} {settings : Settings} {stroke : Stroke} {calls : List DrawCall} {x y : Float}
    (h : .ok calls ∈ v.strokeParts settings stroke) (hvertex : .vertex x y ∈ calls) :
    ∃ ps, stroke.shape.points settings.arcStepDegrees.nearest = .ok ps ∧ ⟨x, y⟩ ∈ ps := by
  simp only [strokeParts, List.mem_cons, List.not_mem_nil, or_false, Except.ok.injEq] at h
  obtain rfl | h := h
  · simp at hvertex
  · cases hps : stroke.shape.pointsBy settings.arcStepDegrees with
    | error reason =>
      rw [hps] at h
      cases h
    | ok ps =>
      rw [hps] at h
      cases h
      exact ⟨ps, Shape.points_of_pointsBy hps, mem_outlineCalls hvertex⟩

/-- A point with a number as each coordinate, be it finite or not. -/
def Point.IsNumber (p : Point) : Prop :=
  p.x.isNaN = false ∧ p.y.isNaN = false

/-- A finite stroke with a length, corners and painted vertices that are never without a value, and finite as far as its exact
shape fits. -/
structure Stroke.InRange (stroke : Stroke) : Prop where
  isFinite : stroke.shape.isFinite = true
  zero_le_length : 0 ≤ stroke.shape.length
  length_isFinite : stroke.shape.LengthFits → stroke.shape.length.isFinite = true
  length_not_isFinite : stroke.shape.LengthOverruns → stroke.shape.length.isFinite = false
  corners : ∃ ps, stroke.shape.points 5 = .ok ps ∧ ps ≠ [] ∧ (∀ p ∈ ps, p.IsNumber) ∧
    (stroke.shape.CornersFit → ∀ p ∈ ps, p.isFinite = true)
  vertices : ∀ (v : Viewport) (settings : Settings) calls x y, settings.arcStepDegrees.nearest = 5 →
    .ok calls ∈ v.strokeParts settings stroke → .vertex x y ∈ calls →
      (Point.mk x y).IsNumber ∧ (stroke.shape.CornersFit → (Point.mk x y).isFinite = true)

structure Surface.InRange (s : Surface) : Prop where
  strokes : ∀ stroke ∈ s.strokes, stroke.InRange
  outOfRange_eq : s.statistics.outOfRange = 0
  zero_le_total : 0 ≤ s.statistics.length
  lengths_isFinite : s.statistics.length.isFinite = true → ∀ stroke ∈ s.strokes, stroke.shape.length.isFinite = true
  total_isFinite : (∀ stroke ∈ s.strokes, stroke.shape.length.isFinite = true) →
    (1 + 1 / 2 ^ 53) ^ s.strokes.length * exactTotal s.strokes < limit → s.statistics.length.isFinite = true
  total_not_isFinite : (∀ stroke ∈ s.strokes, stroke.shape.length.isFinite = true) →
    limit ≤ (1 - 1 / 2 ^ 53) ^ s.strokes.length * exactTotal s.strokes → s.statistics.length.isFinite = false

private theorem Stroke.inRange {stroke : Stroke} (h : stroke.shape.Drawn) (hfinite : stroke.shape.isFinite = true) :
    stroke.InRange := by
  obtain ⟨hle, hfits, hoverruns⟩ := Shape.length_range h hfinite
  obtain ⟨ps, hps, hne, hcorners⟩ := Shape.points_range h hfinite reaches_five
  have hnumbers (p : Point) (hp : p ∈ ps) : p.IsNumber := ⟨(hcorners p hp).1, (hcorners p hp).2.1⟩
  refine ⟨hfinite, hle, hfits, hoverruns, ⟨ps, hps, hne, hnumbers, fun hfit p hp => (hcorners p hp).2.2 hfit⟩, ?_⟩
  intro v settings calls x y hstep hcalls hvertex
  obtain ⟨ps', hps', hmem⟩ := Viewport.vertex_mem_points hcalls hvertex
  rw [hstep, hps, Except.ok.injEq] at hps'
  subst hps'
  exact ⟨hnumbers _ hmem, (hcorners _ hmem).2.2⟩

private theorem Surface.inRange {s : Surface} (h : ∀ stroke ∈ s.strokes, stroke.InRange) : s.InRange := by
  have hmeasured (hfinite : ∀ stroke ∈ s.strokes, stroke.shape.length.isFinite = true) : Measured s.strokes :=
    fun stroke hstroke => ⟨hfinite stroke hstroke, (h stroke hstroke).zero_le_length⟩
  refine ⟨h, ?_, zero_le_totalLength fun stroke hstroke => (h stroke hstroke).zero_le_length, Surface.lengths_isFinite,
    fun hfinite => totalLength_isFinite (hmeasured hfinite), fun hfinite => totalLength_not_isFinite (hmeasured hfinite)⟩
  exact List.countP_eq_zero.mpr fun stroke hstroke => by simp [(h stroke hstroke).isFinite]

/-- Moderate strokes that are not too many have a finite total length. -/
private theorem Surface.total_of_moderate {s : Surface} (h : s.InRange) (hfew : s.strokes.length ≤ commandLimit)
    (hmoderate : ∀ stroke ∈ s.strokes, stroke.shape.Moderate) : s.statistics.length.isFinite = true := by
  have hpos := moderate_pos
  have hlimit := moderate_lt_limit
  have hcount : (s.strokes.length : ℚ) ≤ 2 ^ 50 := by exact_mod_cast hfew
  refine h.total_isFinite (fun stroke hstroke => (hmoderate stroke hstroke).length.1) ?_
  have hsum : exactTotal s.strokes ≤ s.strokes.length * (2 ^ 57 * moderate) :=
    exactTotal_le fun stroke hstroke => (le_abs_self _).trans (hmoderate stroke hstroke).length.2
  have hsum' : exactTotal s.strokes ≤ 2 ^ 50 * (2 ^ 57 * moderate) :=
    hsum.trans (mul_le_mul_of_nonneg_right hcount (by positivity))
  calc (1 + 1 / 2 ^ 53) ^ s.strokes.length * exactTotal s.strokes
    _ ≤ (1 + 1 / 2 ^ 53) ^ s.strokes.length * (2 ^ 50 * (2 ^ 57 * moderate)) :=
      mul_le_mul_of_nonneg_left hsum' (by positivity)
    _ ≤ 2 * (2 ^ 50 * (2 ^ 57 * moderate)) := mul_le_mul_of_nonneg_right (growth_le_two hfew) (by positivity)
    _ < limit := by linarith

namespace Bench

/-- A session without a diagnostic about a cut out of range has a drawing in range: each stroke is finite, and neither its
length, a corner, a vertex that is painted, nor the total length is without a value. They are finite as far as the exact drawing
fits, and it fits if the program is not too long and its numbers are moderate. -/
theorem drawing_in_range (setup : Setup) (surface : Surface) (text : String) (speed : Option Quantity) (scale : Float)
    (events : List Event) (alone : ∀ e ∈ events, e.opens = false) :
    let b := (start setup surface text speed scale).after events
    ∃ p, b.desk.sessions = [⟨text, p⟩] ∧ p.log.isSome = true ∧
      ((∀ d ∈ p.diagnostics, d.kind ≠ .motion) → b.desk.surface.InRange) ∧
      ((Program.commands text).length ≤ commandLimit → (∀ c ∈ Program.commands text, c.isModerate scale = true) →
        (∀ d ∈ p.diagnostics, d.kind ≠ .motion) ∧
          (∀ stroke ∈ b.desk.surface.strokes, stroke.shape.LengthFits ∧ stroke.shape.CornersFit) ∧
          b.desk.surface.statistics.length.isFinite = true) := by
  intro b
  obtain ⟨p, hp, hplaced, hlogs⟩ := logs_of_start setup surface text speed scale events alone
  have hrange (hnone : ∀ d ∈ p.diagnostics, d.kind ≠ .motion) : b.desk.surface.InRange := by
    refine Surface.inRange fun stroke hstroke => ?_
    rw [hplaced.strokes_eq] at hstroke
    refine Stroke.inRange (Machine.strokesOf_drawn hstroke) (Machine.strokesOf_isFinite (fun d hd => ?_) hstroke)
    refine hnone d ((List.mergeSort_perm _ _).mem_iff.mpr (List.mem_reverse.mpr ?_))
    rw [hlogs, Option.getD_some]
    exact List.mem_reverse.mpr (List.mem_append_right _ hd)
  refine ⟨p, hp, by rw [hlogs]; rfl, hrange, fun hfew hcs => ?_⟩
  have hbefore (n : ℕ) : ∀ c ∈ (Program.commands text).take n, c.isModerate scale = true :=
    fun c hc => hcs c (List.mem_of_mem_take hc)
  have hprogram (n : ℕ) := Machine.moderate_program ((List.length_take_le' _ _).trans hfew) (hbefore n)
    ⟨scale, setup.widthFactor⟩
  have hnone : ∀ d ∈ p.diagnostics, d.kind ≠ .motion := by
    intro d hd
    have hmem := List.mem_reverse.mp ((List.mergeSort_perm _ _).mem_iff.mp hd)
    rw [hlogs, Option.getD_some, List.mem_reverse, List.append_assoc] at hmem
    -- a diagnostic is a warning of the program, or was reported by an earlier run or by the current one
    obtain hwarning | hmem := List.mem_append.mp hmem
    · rw [Program.warnings_kind hwarning]
      exact nofun
    · obtain hold | hnew := List.mem_append.mp hmem
      · obtain ⟨n, -, hn⟩ := List.mem_flatMap.mp hold
        exact (hprogram n).1 d hn
      · exact (hprogram p.cursor).1 d hnew
  have hmoderate : ∀ stroke ∈ b.desk.surface.strokes, stroke.shape.Moderate :=
    hplaced.strokes_eq ▸ (hprogram p.cursor).2
  refine ⟨hnone, fun stroke hstroke => ⟨(hmoderate stroke hstroke).lengthFits, (hmoderate stroke hstroke).cornersFit⟩, ?_⟩
  refine Surface.total_of_moderate (hrange hnone) ?_ hmoderate
  rw [hplaced.strokes_eq]
  exact (Machine.length_strokesOf_le _ _ _).trans ((List.length_take_le' _ _).trans hfew)

/-- A line and an arc of moderate size. -/
theorem drawing_in_range_of_arc :
    let text := "G01 X3 Y4\nG02 X3 Y14 J5\nM02"
    let events : List Event := [.run 0, .advance 1000]
    let b := (start ⟨.whole 1, 1.5, true⟩ (.ofSize (.whole 800) (.whole 600)) text (some (.whole 5)) 1).after events
    (∀ e ∈ events, e.opens = false) ∧ (b.desk.sessions.map fun session => session.playback.mode) = [.finished] ∧
      b.desk.surface.strokes.length = 2 ∧ (Program.commands text).length ≤ commandLimit ∧
      (∀ c ∈ Program.commands text, c.isModerate 1 = true) ∧
      ∃ p, b.desk.sessions = [⟨text, p⟩] ∧ p.log.isSome = true ∧ (∀ d ∈ p.diagnostics, d.kind ≠ .motion) ∧
        b.desk.surface.InRange ∧
        (∀ stroke ∈ b.desk.surface.strokes, stroke.shape.LengthFits ∧ stroke.shape.CornersFit) ∧
        b.desk.surface.statistics.length.isFinite = true := by
  intro text events b
  have hfew : (Program.commands text).length ≤ commandLimit := by decide +kernel
  have hcs : ∀ c ∈ Program.commands text, c.isModerate 1 = true := by decide +kernel
  obtain ⟨p, hp, hlog, hrange, hmoderate⟩ := drawing_in_range ⟨.whole 1, 1.5, true⟩ (.ofSize (.whole 800) (.whole 600))
    text (some (.whole 5)) 1 events (by decide)
  obtain ⟨hnone, hfits, htotal⟩ := hmoderate hfew hcs
  exact ⟨by decide, by decide +kernel, by decide +kernel, hfew, hcs, p, hp, hlog, hnone, hrange hnone, hfits, htotal⟩

/-- A complete run without a diagnostic. Its second line is too long for a float, and so is its arc, which ends outside of the
range of floats as well. -/
theorem overflowing_drawing_unreported :
    let text := "G01 X1e308\nG01 X-1e308\nG03 X1e308 I1.5e308"
    let b := (start ⟨.whole 1, 1.5, false⟩ (.ofSize (.whole 800) (.whole 600)) text (some (.whole 5)) 1).after
      [.run 0, .runPending 100]
    (b.desk.sessions.map fun session => (session.playback.mode, session.playback.log)) = [(.finished, some [])] ∧
      b.desk.surface.statistics.outOfRange = 0 ∧
      (b.desk.surface.strokes.map fun stroke => stroke.shape.length.isFinite) = [true, false, false] ∧
      (b.desk.surface.strokes.map fun stroke => (stroke.shape.points 5).toOption.map (·.all Point.isFinite)) =
        [some true, some true, some false] ∧
      b.desk.surface.statistics.length.isFinite = false := by
  decide +kernel

end Bench

end WireCut
