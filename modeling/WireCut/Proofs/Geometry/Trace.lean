import WireCut.Proofs.Number.Angle
import WireCut.Surface.Basic

/-! Polylines along strokes. An arc whose angles are directions of vectors can be cut into pieces: the number of
pieces is a whole number, and every angle at which a sine or a cosine is taken is finite. -/
namespace WireCut

open Float.Model UnpackedFloat

theorem turn_unpack : turn.toModel.unpack = .finite .positive 7074237752028440 (-50) (by decide) := rfl

private theorem degree_unpack : (180 / halfTurn).toModel.unpack = .finite .positive 8063664102031864 (-47) (by decide) := rfl

/-- The sweep between two angles is at most a few turns, whatever the angles are. -/
theorem within_sweepBetween {start stop : Float} (hstart : Within 55 start) (hstop : Within 55 stop) (clockwise : Bool) :
    Within 6 (sweepBetween start stop clockwise) := by
  have hturn : Within 3 turn := by
    rw [Within, turn_unpack]
    exact .finite _ _ _ _ (by decide)
  have hreach : Reaches 0 turn := by
    rw [Reaches, turn_unpack]
    exact .finite _ _ _ _ (by decide)
  have hmodulo {a b : Float} (ha : Within 55 a) (hb : Within 55 b) : Within 6 (modulo (a - b) turn) :=
    within_modulo (ha.sub hb (by decide) (by decide)).isFinite hturn hreach (by decide) (by decide)
  cases clockwise with
  | true => exact (hmodulo hstart hstop).neg (by decide)
  | false => exact hmodulo hstop hstart

private theorem within_degrees {angle : Float} (h : Within 6 angle) : Within 13 (degrees angle) := by
  have hdegree : Within 6 (180 / halfTurn) := by
    rw [Within, degree_unpack]
    exact .finite _ _ _ _ (by decide)
  exact h.mul hdegree (by decide) (by decide)

private theorem Reaches.ne_zero {k : Int} {v : Float} (h : Reaches k v) : (v == 0) = false := by
  have hbeq : (v == 0) = UnpackedFloat.beq v.toModel.unpack (.zero .positive) := rfl
  rw [Reaches] at h
  rw [hbeq]
  generalize v.toModel.unpack = u at h
  cases h with
  | finite s => cases s <;> rfl

namespace Arc

/-- An arc from the direction of one vector to that of another. -/
structure Aimed (a : Arc) : Prop where
  start : ∃ y x, a.startAngle = atan2 y x
  stop : ∃ y x, a.endAngle = atan2 y x

def Traceable (a : Arc) (step : Float) : Prop :=
  ∃ angles : List Float, (∀ angle ∈ angles, angle.isFinite = true) ∧ a.points step = .ok (angles.map a.pointAt)

variable {a : Arc} {step : Float}

theorem Aimed.within (h : a.Aimed) (hfinite : a.isFinite = true) : Within 55 a.startAngle ∧ Within 55 a.endAngle := by
  obtain ⟨⟨y, x, hstart⟩, y', x', hstop⟩ := h
  simp only [isFinite, Bool.and_eq_true] at hfinite
  obtain ⟨⟨-, hs⟩, he⟩ := hfinite
  rw [hstart, Finite.atan2_isFinite, Bool.and_eq_true, Bool.not_eq_true', Bool.not_eq_true'] at hs
  rw [hstop, Finite.atan2_isFinite, Bool.and_eq_true, Bool.not_eq_true', Bool.not_eq_true'] at he
  rw [hstart, hstop]
  exact ⟨Finite.within_atan2 hs.1 hs.2, Finite.within_atan2 he.1 he.2⟩

private theorem pieces_ok (hsweep : Within 6 a.sweep) (hstep : Reaches 0 step) :
    ∃ n, a.pieces step = .ok n ∧ 8 ≤ n ∧ n ≤ 2 ^ 14 := by
  have hsize : Within (14 : Nat) ((degrees a.sweep).abs / step) :=
    ((within_degrees hsweep).abs (by decide)).div hstep (i := 13) (by decide) (by decide) (by decide)
  obtain ⟨n, hn, hle⟩ := hsize.ceil
  refine ⟨(max 8 n).toNat, ?_, by omega, by omega⟩
  rw [pieces, hstep.ne_zero, hn]
  rfl

/-- Every corner of the polyline is at a finite angle. -/
private theorem angle_isFinite {n i : Nat} (hstart : Within 55 a.startAngle) (hsweep : Within 6 a.sweep) (hpos : n ≠ 0)
    (hn : n ≤ 2 ^ 14) (hi : i ≤ n) : (a.startAngle + a.sweep * Float.ofNat i / Float.ofNat n).isFinite = true := by
  have hcount : Within 18 (Float.ofNat i) := within_ofNat (k := 15) (by omega) (by decide)
  have hpart := (hsweep.mul hcount (by decide) (by decide)).div (reaches_ofNat hpos (by omega)) (i := 25) (by decide)
    (by decide) (by decide)
  exact (hstart.add (hpart.mono (by decide)) (by decide) (by decide)).isFinite

theorem Aimed.traceable (h : a.Aimed) (hstep : Reaches 0 step) : a.Traceable step := by
  unfold Traceable points
  cases hfinite : a.isFinite with
  | false => exact ⟨[], nofun, rfl⟩
  | true =>
    obtain ⟨hstart, hstop⟩ := h.within hfinite
    have hsweep : Within 6 a.sweep := within_sweepBetween hstart hstop a.clockwise
    simp only [Bool.not_true, Bool.false_eq_true, if_false]
    split
    · exact ⟨[a.startAngle], fun angle hangle => List.mem_singleton.mp hangle ▸ hstart.isFinite, rfl⟩
    · obtain ⟨n, hn, hlow, hhigh⟩ := pieces_ok hsweep hstep
      refine ⟨(List.range (n + 1)).map fun i => a.startAngle + a.sweep * Float.ofNat i / Float.ofNat n, ?_, ?_⟩
      · intro angle hangle
        obtain ⟨i, hi, rfl⟩ := List.mem_map.mp hangle
        have := List.mem_range.mp hi
        exact angle_isFinite hstart hsweep (by omega) hhigh (by omega)
      · rw [hn, List.map_map]
        rfl

end Arc

namespace Shape

def Aimed : Shape → Prop
  | line .. => True
  | arc a => a.Aimed

/-- A shape that is straight, or an arc between directions of vectors with the length of a vector as its radius. -/
def Drawn : Shape → Prop
  | line .. => True
  | arc a => a.Aimed ∧ ∃ i j, a.radius = hypot i j

theorem Drawn.aimed {s : Shape} (h : s.Drawn) : s.Aimed := by
  cases s with
  | line start stop => trivial
  | arc a => exact h.1

def Traceable (step : Float) : Shape → Prop
  | line start stop => ∃ ps, points step (line start stop) = .ok ps
  | arc a => a.Traceable step

theorem Aimed.traceable {s : Shape} (h : s.Aimed) {step : Float} (hstep : Reaches 0 step) : s.Traceable step := by
  cases s with
  | line start stop => exact ⟨_, rfl⟩
  | arc a => exact Arc.Aimed.traceable h hstep

private theorem Traceable.points_ok {s : Shape} {step : Float} (h : s.Traceable step) : ∃ ps, s.points step = .ok ps := by
  cases s with
  | line start stop => exact h
  | arc a =>
    obtain ⟨angles, -, hpoints⟩ := h
    exact ⟨_, hpoints⟩

end Shape

theorem reaches_one : Reaches 0 1 := by
  rw [Reaches, one_unpack]
  exact .finite _ _ _ _ (by decide)

private theorem five_unpack : (5 : Float).toModel.unpack = .finite .positive (5 * 2 ^ 50) (-50) (by decide) := rfl

theorem reaches_five : Reaches 0 5 := by
  rw [Reaches, five_unpack]
  exact .finite _ _ _ _ (by decide)

namespace Surface

/-- Strokes that can all be traced in pieces of one degree have a box around them. -/
private theorem boundsOf_ok {strokes : List Stroke} (h : ∀ stroke ∈ strokes, stroke.shape.Traceable 1) :
    ∃ box?, boundsOf strokes = .ok box? := by
  have hfold (box? : Option Bounds) : ∃ box?', strokes.foldlM widen box? = .ok box?' := by
    induction strokes generalizing box? with
    | nil => exact ⟨box?, rfl⟩
    | cons stroke strokes ih =>
      obtain ⟨ps, hps⟩ := (h stroke List.mem_cons_self).points_ok
      rw [List.foldlM_cons, widen, Shape.bounds, hps]
      exact ih (fun other hother => h other (List.mem_cons_of_mem stroke hother)) _
  exact hfold none

theorem bounds_ok {s : Surface} (h : ∀ stroke ∈ s.strokes, stroke.shape.Traceable 1) : ∃ box, s.bounds = .ok box := by
  obtain ⟨box?, hbox⟩ := boundsOf_ok h
  exact ⟨box?.getD .nothing, by rw [bounds, hbox]; rfl⟩

end Surface

end WireCut
