import WireCut.Proofs.Geometry.Trace
import WireCut.Proofs.Number.Circle
import WireCut.Proofs.Number.Hypotenuse

/-! Shapes within the range of floats. The numbers of a shape can all be finite while its length or a corner of its polyline
is not. Whether they are is told by the exact shape, and none of them is ever without a value. -/
namespace WireCut

open Binary64

def Point.squareTo (p q : Point) : ℚ :=
  (toRat q.x - toRat p.x) ^ 2 + (toRat q.y - toRat p.y) ^ 2

namespace Shape

/-- Whether the exact length of a shape is within the range of floats. The length of a line is rounded several times, so it
has to stay below the range by a small part of it. -/
def LengthFits : Shape → Prop
  | line start stop => start.squareTo stop ≤ ((1 - 8 / 2 ^ 53) * beyond) ^ 2
  | arc a => toRat a.radius * |toRat a.sweep| < limit

def LengthOverruns : Shape → Prop
  | line start stop => ((1 + 8 / 2 ^ 53) * beyond) ^ 2 ≤ start.squareTo stop
  | arc a => limit ≤ toRat a.radius * |toRat a.sweep|

/-- Whether the circle of an arc is within the range of floats on both axes. The ends of a line are what they are. -/
def CornersFit : Shape → Prop
  | line .. => True
  | arc a => |toRat a.center.x| + toRat a.radius < limit ∧ |toRat a.center.y| + toRat a.radius < limit

end Shape

private theorem least_le_beyond : (2 : ℚ) ^ (-499 : ℤ) ≤ beyond :=
  zpow_le_zpow_right₀ one_le_two (by decide)

/-- The length between two points is never negative and never without a value. -/
private theorem zero_le_distance {p q : Point} (hp : p.isFinite = true) (hq : q.isFinite = true) :
    0 ≤ hypot (q.x - p.x) (q.y - p.y) := by
  obtain ⟨hpx, hpy⟩ := Bool.and_eq_true_iff.mp hp
  obtain ⟨hqx, hqy⟩ := Bool.and_eq_true_iff.mp hq
  exact zero_le_hypot (Finite.sub_isNaN_of_isFinite hqx hpx) (Finite.sub_isNaN_of_isFinite hqy hpy)

private theorem distance_isFinite {p q : Point} (hp : p.isFinite = true) (hq : q.isFinite = true)
    (h : p.squareTo q ≤ ((1 - 8 / 2 ^ 53) * beyond) ^ 2) : (hypot (q.x - p.x) (q.y - p.y)).isFinite = true := by
  obtain ⟨hpx, hpy⟩ := Bool.and_eq_true_iff.mp hp
  obtain ⟨hqx, hqy⟩ := Bool.and_eq_true_iff.mp hq
  have hpos := beyond_pos
  have hx := Nearest.sub hqx hpx
  have hy := Nearest.sub hqy hpy
  rw [Point.squareTo] at h
  generalize toRat q.x - toRat p.x = c at h hx
  generalize toRat q.y - toRat p.y = d at h hy
  have hc : |c| ≤ (1 - 8 / 2 ^ 53) * beyond := abs_le_of_sq_le_sq (by linarith [sq_nonneg d]) (by linarith)
  have hd : |d| ≤ (1 - 8 / 2 ^ 53) * beyond := abs_le_of_sq_le_sq (by linarith [sq_nonneg c]) (by linarith)
  have hfx := hx.isFinite_iff_lt.mpr (by rw [limit_eq_beyond]; linarith)
  have hfy := hy.isFinite_iff_lt.mpr (by rw [limit_eq_beyond]; linarith)
  have hsquare := (hx.sq_error hfx (hc.trans (by linarith)) least_le_beyond).2
  have hsquare' := (hy.sq_error hfy (hd.trans (by linarith)) least_le_beyond).2
  exact hypot_isFinite hfx hfy (by nlinarith)

private theorem distance_not_isFinite {p q : Point} (hp : p.isFinite = true) (hq : q.isFinite = true)
    (h : ((1 + 8 / 2 ^ 53) * beyond) ^ 2 ≤ p.squareTo q) : (hypot (q.x - p.x) (q.y - p.y)).isFinite = false := by
  obtain ⟨hpx, hpy⟩ := Bool.and_eq_true_iff.mp hp
  obtain ⟨hqx, hqy⟩ := Bool.and_eq_true_iff.mp hq
  have hpos := beyond_pos
  have hx := Nearest.sub hqx hpx
  have hy := Nearest.sub hqy hpy
  have hnx := Finite.sub_isNaN_of_isFinite hqx hpx
  have hny := Finite.sub_isNaN_of_isFinite hqy hpy
  rw [Point.squareTo] at h
  generalize toRat q.x - toRat p.x = c at h hx
  generalize toRat q.y - toRat p.y = d at h hy
  generalize q.x - p.x = v at hx hnx ⊢
  generalize q.y - p.y = w at hy hny ⊢
  -- a difference can overflow by itself, and then the length does, whatever the other one is
  by_cases hfinite : v.isFinite = true ∧ w.isFinite = true
  · obtain ⟨hfx, hfy⟩ := hfinite
    have hc := (hx.isFinite_iff_lt.mp hfx).le.trans limit_le
    have hd := (hy.isFinite_iff_lt.mp hfy).le.trans limit_le
    have hsquare := (hx.sq_error hfx hc least_le_beyond).1
    have hsquare' := (hy.sq_error hfy hd least_le_beyond).1
    rw [← beyond] at hsquare hsquare'
    exact hypot_not_isFinite hfx hfy (by nlinarith)
  · rw [hypot_of_not_isFinite hnx hny hfinite]
    rfl

namespace Arc
variable {a : Arc}

/-- A coordinate of a point of a circle, from the center, the radius, and a sine or a cosine. -/
private theorem coordinate_range {center radius wave : Float} (hc : center.isFinite = true) (hr : radius.isFinite = true)
    (hw : wave.isFinite = true ∧ |toRat wave| ≤ 1) : (center + radius * wave).isNaN = false ∧
      (|toRat center| + |toRat radius| < limit → (center + radius * wave).isFinite = true) := by
  have hle : |toRat radius * toRat wave| ≤ |toRat radius| := by
    rw [abs_mul]
    exact mul_le_of_le_one_right (abs_nonneg _) hw.2
  obtain ⟨hfinite, hsize⟩ := (Nearest.mul hr hw.1).mono (Nearest.self hr) hle hr
  refine ⟨(Finite.add_isNaN center hfinite).trans (Finite.isNaN_of_isFinite hc), fun hlimit => ?_⟩
  rw [(Nearest.add hc hfinite).isFinite_iff_lt]
  exact (abs_add_le _ _).trans_lt (by linarith)

private theorem pointAt_range (h : a.isFinite = true) (hr : 0 ≤ toRat a.radius) {angle : Float} (hangle : angle.isFinite = true) :
    (a.pointAt angle).x.isNaN = false ∧ (a.pointAt angle).y.isNaN = false ∧
      ((Shape.arc a).CornersFit → (a.pointAt angle).isFinite = true) := by
  simp only [isFinite, Point.isFinite, Bool.and_eq_true] at h
  obtain ⟨⟨⟨⟨hx, hy⟩, hradius⟩, -⟩, -⟩ := h
  obtain ⟨hnx, hfx⟩ := coordinate_range hx hradius (abs_cos_le hangle)
  obtain ⟨hny, hfy⟩ := coordinate_range hy hradius (abs_sin_le hangle)
  refine ⟨hnx, hny, fun hfit => Bool.and_eq_true_iff.mpr ⟨hfx ?_, hfy ?_⟩⟩
  · rw [abs_of_nonneg hr]
    exact hfit.1
  · rw [abs_of_nonneg hr]
    exact hfit.2

private theorem Aimed.sweep_isFinite (h : a.Aimed) (hfinite : a.isFinite = true) : a.sweep.isFinite = true := by
  obtain ⟨hstart, hstop⟩ := h.within hfinite
  exact (within_sweepBetween hstart hstop a.clockwise).isFinite

/-- The length of an arc is rounded once from the product of the radius and the sweep. -/
private theorem length_range (h : a.isFinite = true) (hr : 0 ≤ toRat a.radius) (hs : a.sweep.isFinite = true) :
    0 ≤ a.length ∧ (a.length.isFinite = true ↔ toRat a.radius * |toRat a.sweep| < limit) := by
  have hradius : a.radius.isFinite = true := by
    simp only [isFinite, Bool.and_eq_true] at h
    exact h.1.1.2
  obtain ⟨habs, hvalue⟩ := toRat_abs hs
  have hsize : 0 ≤ toRat a.sweep.abs := hvalue ▸ abs_nonneg _
  rw [length, if_pos h]
  refine ⟨zero_le_mul hradius habs hr hsize, ?_⟩
  rw [(Nearest.mul hradius habs).isFinite_iff_lt, abs_of_nonneg (mul_nonneg hr hsize), hvalue]

private theorem points_ne_nil {step : Float} {ps : List Point} (h : a.isFinite = true) (hps : a.points step = .ok ps) : ps ≠ [] := by
  rw [points, h] at hps
  simp only [Bool.not_true, Bool.false_eq_true, if_false] at hps
  split at hps
  · cases hps
    exact List.cons_ne_nil _ _
  · cases hn : a.pieces step with
    | error reason =>
      rw [hn] at hps
      cases hps
    | ok n =>
      rw [hn] at hps
      cases hps
      simp

end Arc

namespace Shape
variable {s : Shape}

theorem Drawn.radius {a : Arc} (h : (arc a).Drawn) (hfinite : a.isFinite = true) : 0 ≤ toRat a.radius := by
  obtain ⟨-, i, j, hradius⟩ := h
  simp only [Arc.isFinite, Bool.and_eq_true] at hfinite
  rw [hradius] at hfinite ⊢
  exact zero_le_toRat_hypot hfinite.1.1.2

/-- The length of a shape is never negative and never without a value. It is finite if the exact length fits, and infinite if
that overruns. -/
theorem length_range (h : s.Drawn) (hfinite : s.isFinite = true) : 0 ≤ s.length ∧
    (s.LengthFits → s.length.isFinite = true) ∧ (s.LengthOverruns → s.length.isFinite = false) := by
  cases s with
  | line start stop =>
    rw [isFinite] at hfinite
    obtain ⟨hstart, hstop⟩ := Bool.and_eq_true_iff.mp hfinite
    rw [length, if_pos hfinite]
    exact ⟨zero_le_distance hstart hstop, distance_isFinite hstart hstop, distance_not_isFinite hstart hstop⟩
  | arc a =>
    obtain ⟨hle, hiff⟩ := a.length_range hfinite (h.radius hfinite) (h.1.sweep_isFinite hfinite)
    exact ⟨hle, hiff.mpr, fun hover => Bool.not_eq_true _ ▸ fun hlength => (hiff.mp hlength).not_ge hover⟩

/-- A shape has corners, all with numbers as coordinates, and finite ones if its circle fits. -/
theorem points_range (h : s.Drawn) (hfinite : s.isFinite = true) {step : Float} (hstep : Reaches 0 step) :
    ∃ ps, s.points step = .ok ps ∧ ps ≠ [] ∧
      ∀ p ∈ ps, p.x.isNaN = false ∧ p.y.isNaN = false ∧ (s.CornersFit → p.isFinite = true) := by
  cases s with
  | line start stop =>
    have hpoint {p : Point} (hp : p.isFinite = true) : p.x.isNaN = false ∧ p.y.isNaN = false :=
      ⟨Finite.isNaN_of_isFinite (Bool.and_eq_true_iff.mp hp).1, Finite.isNaN_of_isFinite (Bool.and_eq_true_iff.mp hp).2⟩
    rw [isFinite] at hfinite
    obtain ⟨hstart, hstop⟩ := Bool.and_eq_true_iff.mp hfinite
    refine ⟨[start, stop], by rw [points, if_pos hfinite], List.cons_ne_nil _ _, ?_⟩
    intro p hp
    obtain rfl | hp := List.mem_cons.mp hp
    · exact ⟨(hpoint hstart).1, (hpoint hstart).2, fun _ => hstart⟩
    · obtain rfl := List.mem_singleton.mp hp
      exact ⟨(hpoint hstop).1, (hpoint hstop).2, fun _ => hstop⟩
  | arc a =>
    obtain ⟨angles, hangles, hpoints⟩ := h.1.traceable hstep
    refine ⟨_, hpoints, Arc.points_ne_nil hfinite hpoints, fun p hp => ?_⟩
    obtain ⟨angle, hangle, rfl⟩ := List.mem_map.mp hp
    exact Arc.pointAt_range hfinite (h.radius hfinite) (hangles angle hangle)

end Shape

end WireCut
