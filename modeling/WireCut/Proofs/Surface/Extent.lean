import Mathlib.Order.Bounds.Basic
import WireCut.Proofs.Machine.Axis
import WireCut.Proofs.Number.Finite
import WireCut.Proofs.Number.Value
import WireCut.Surface.Basic

/-! The extent of a drawing. The box around a surface is the least box around the finite corners of its strokes, and it
does not depend on the order of the strokes. -/
namespace WireCut

open Float.Model

section
variable {s t : Set Float} {a b : Float}

/-- The lesser one of two least numbers is the least one of both sets. -/
private theorem isLeast_lesser (finite : ∀ v ∈ s ∪ t, v.isFinite = true) (ha : IsLeast s a) (hb : IsLeast t b) :
    IsLeast (s ∪ t) (lesser a b) := by
  have hfa : a.isFinite = true := finite a (.inl ha.1)
  have hfb : b.isFinite = true := finite b (.inr hb.1)
  have hle (v : Float) (hv : v ∈ s ∪ t) : min (toRat a) (toRat b) ≤ toRat v := by
    obtain hs | ht := hv
    · exact (min_le_left _ _).trans ((le_iff hfa (finite v (.inl hs))).mp (ha.2 hs))
    · exact (min_le_right _ _).trans ((le_iff hfb (finite v (.inr ht))).mp (hb.2 ht))
  rw [lesser]
  split_ifs with hlt
  · rw [lt_iff hfb hfa] at hlt
    rw [min_eq_right hlt.le] at hle
    exact ⟨.inr hb.1, fun v hv => (le_iff hfb (finite v hv)).mpr (hle v hv)⟩
  · rw [lt_iff hfb hfa, not_lt] at hlt
    rw [min_eq_left hlt] at hle
    exact ⟨.inl ha.1, fun v hv => (le_iff hfa (finite v hv)).mpr (hle v hv)⟩

private theorem isGreatest_greater (finite : ∀ v ∈ s ∪ t, v.isFinite = true) (ha : IsGreatest s a) (hb : IsGreatest t b) :
    IsGreatest (s ∪ t) (greater a b) := by
  have hfa : a.isFinite = true := finite a (.inl ha.1)
  have hfb : b.isFinite = true := finite b (.inr hb.1)
  have hle (v : Float) (hv : v ∈ s ∪ t) : toRat v ≤ max (toRat a) (toRat b) := by
    obtain hs | ht := hv
    · exact ((le_iff (finite v (.inl hs)) hfa).mp (ha.2 hs)).trans (le_max_left _ _)
    · exact ((le_iff (finite v (.inr ht)) hfb).mp (hb.2 ht)).trans (le_max_right _ _)
  rw [greater]
  split_ifs with hlt
  · rw [lt_iff hfa hfb] at hlt
    rw [max_eq_right hlt.le] at hle
    exact ⟨.inr hb.1, fun v hv => (le_iff (finite v hv) hfb).mpr (hle v hv)⟩
  · rw [lt_iff hfa hfb, not_lt] at hlt
    rw [max_eq_left hlt] at hle
    exact ⟨.inl ha.1, fun v hv => (le_iff (finite v hv) hfa).mpr (hle v hv)⟩

/-- Two least numbers of one set have one value. They may be zeros of both signs. -/
private theorem toRat_isLeast (finite : ∀ v ∈ s, v.isFinite = true) (ha : IsLeast s a) (hb : IsLeast s b) :
    toRat a = toRat b := by
  have hfa : a.isFinite = true := finite a ha.1
  have hfb : b.isFinite = true := finite b hb.1
  exact le_antisymm ((le_iff hfa hfb).mp (ha.2 hb.1)) ((le_iff hfb hfa).mp (hb.2 ha.1))

private theorem toRat_isGreatest (finite : ∀ v ∈ s, v.isFinite = true) (ha : IsGreatest s a) (hb : IsGreatest s b) :
    toRat a = toRat b := by
  have hfa : a.isFinite = true := finite a ha.1
  have hfb : b.isFinite = true := finite b hb.1
  exact le_antisymm ((le_iff hfa hfb).mp (hb.2 ha.1)) ((le_iff hfb hfa).mp (ha.2 hb.1))

end

def coordinates (axis : Axis) (ps : List Point) : Set Float :=
  {v | ∃ p ∈ ps, p.along axis = v}

private theorem coordinates_append (axis : Axis) (ps qs : List Point) :
    coordinates axis (ps ++ qs) = coordinates axis ps ∪ coordinates axis qs := by
  ext v
  simp only [coordinates, List.mem_append, Set.mem_ofPred_eq, Set.mem_union, or_and_right, exists_or]

private theorem isFinite_coordinates (axis : Axis) {ps : List Point} (finite : ∀ p ∈ ps, p.isFinite = true) :
    ∀ v ∈ coordinates axis ps, v.isFinite = true := by
  rintro v ⟨p, hp, rfl⟩
  have hboth := finite p hp
  rw [Point.isFinite, Bool.and_eq_true] at hboth
  cases axis
  · exact hboth.1
  · exact hboth.2

namespace Bounds
variable {box other : Bounds} {ps qs : List Point}

/-- A box that spans finite points: on each axis it goes from the least to the greatest of their coordinates. -/
structure Spans (box : Bounds) (ps : List Point) : Prop where
  finite : ∀ p ∈ ps, p.isFinite = true
  low : ∀ axis, IsLeast (coordinates axis ps) (box.low.along axis)
  high : ∀ axis, IsGreatest (coordinates axis ps) (box.high.along axis)

namespace Spans

private theorem ofPoint {p : Point} (hp : p.isFinite = true) : (ofPoint p).Spans [p] := by
  have hfinite : ∀ q ∈ [p], q.isFinite = true := by simp [hp]
  have hmem (axis : Axis) : p.along axis ∈ coordinates axis [p] := ⟨p, List.mem_singleton_self p, rfl⟩
  have hself (axis : Axis) : p.along axis ≤ p.along axis := by
    have hv := isFinite_coordinates axis hfinite _ (hmem axis)
    exact (le_iff hv hv).mpr le_rfl
  refine ⟨hfinite, fun axis => ⟨hmem axis, ?_⟩, fun axis => ⟨hmem axis, ?_⟩⟩
  all_goals
    rintro v ⟨q, hq, rfl⟩
    obtain rfl := List.mem_singleton.mp hq
    exact hself axis

private theorem join (h : box.Spans ps) (h' : other.Spans qs) : (box.join other).Spans (ps ++ qs) := by
  have hfinite : ∀ p ∈ ps ++ qs, p.isFinite = true := by
    intro p hp
    exact (List.mem_append.mp hp).elim (h.finite p) (h'.finite p)
  have hcoordinates (axis : Axis) := isFinite_coordinates axis hfinite
  simp only [coordinates_append] at hcoordinates
  refine ⟨hfinite, fun axis => ?_, fun axis => ?_⟩
  · rw [coordinates_append]
    have hjoin := isLeast_lesser (hcoordinates axis) (h.low axis) (h'.low axis)
    cases axis <;> exact hjoin
  · rw [coordinates_append]
    have hjoin := isGreatest_greater (hcoordinates axis) (h.high axis) (h'.high axis)
    cases axis <;> exact hjoin

/-- The lower corner is not above the upper one. -/
private theorem low_le_high (h : box.Spans ps) (axis : Axis) : box.low.along axis ≤ box.high.along axis :=
  (h.high axis).2 (h.low axis).1

/-- Boxes that span the same points have corners of the same values. -/
private theorem toRat_eq (h : box.Spans ps) (h' : other.Spans qs) (same : ∀ p, p ∈ ps ↔ p ∈ qs) (axis : Axis) :
    toRat (box.low.along axis) = toRat (other.low.along axis) ∧
      toRat (box.high.along axis) = toRat (other.high.along axis) := by
  have hsets : coordinates axis qs = coordinates axis ps := by
    simp only [coordinates, same]
  have hfinite := isFinite_coordinates axis h.finite
  have hlow := h'.low axis
  have hhigh := h'.high axis
  rw [hsets] at hlow hhigh
  exact ⟨toRat_isLeast hfinite (h.low axis) hlow, toRat_isGreatest hfinite (h.high axis) hhigh⟩

end Spans

/-- A box that may be missing spans points, and it is missing only if there are none. -/
inductive Encloses : Option Bounds → List Point → Prop where
  | nothing : Encloses none []
  | box {box : Bounds} {ps : List Point} (spans : box.Spans ps) : Encloses (some box) ps

namespace Encloses
variable {box? : Option Bounds}

private theorem eq_none (h : Encloses box? []) : box? = none := by
  cases h with
  | nothing => rfl
  | box spans =>
    obtain ⟨p, hp, -⟩ := (spans.low .x).1
    cases hp

private theorem eq_some (h : Encloses box? ps) (hne : ps ≠ []) : ∃ box, box? = some box ∧ box.Spans ps := by
  cases h with
  | nothing => exact absurd rfl hne
  | box spans => exact ⟨_, rfl, spans⟩

end Encloses

private theorem encloses_ofPoints (ps : List Point) : Encloses (ofPoints ps) (ps.filter Point.isFinite) := by
  have hfold (rest : List Point) (finite : ∀ p ∈ rest, p.isFinite = true) (box : Bounds) (front : List Point)
      (h : box.Spans front) : (rest.foldl (fun box q => box.join (.ofPoint q)) box).Spans (front ++ rest) := by
    induction rest generalizing box front with
    | nil => rwa [List.append_nil]
    | cons q rest ih =>
      have hnext := ih (fun p hp => finite p (List.mem_cons_of_mem q hp)) _ _
        (h.join (.ofPoint (finite q List.mem_cons_self)))
      rwa [List.append_assoc, List.singleton_append] at hnext
  have hfinite : ∀ p ∈ ps.filter Point.isFinite, p.isFinite = true := fun p hp => (List.mem_filter.mp hp).2
  rw [ofPoints]
  cases hps : ps.filter Point.isFinite with
  | nil => exact .nothing
  | cons p rest =>
    rw [hps] at hfinite
    exact .box (hfold rest (fun q hq => hfinite q (List.mem_cons_of_mem p hq)) _ [p]
      (.ofPoint (hfinite p List.mem_cons_self)))

end Bounds

/-- The finite corners of a stroke: both ends of a line, and those of an arc that is cut into pieces of one degree. -/
def Stroke.corners (stroke : Stroke) : List Point :=
  match stroke.shape.points 1 with
  | .ok ps => ps.filter Point.isFinite
  | .error _ => []

namespace Surface

def corners (s : Surface) : List Point :=
  s.strokes.flatMap Stroke.corners

def Traced (s : Surface) : Prop :=
  ∀ stroke ∈ s.strokes, ∃ ps, stroke.shape.points 1 = .ok ps

/-- Strokes without finite corners have no part in the corners of a surface. -/
private theorem mem_corners {s : Surface} {p : Point} :
    p ∈ s.corners ↔ ∃ stroke ∈ s.strokes.filter (!·.corners.isEmpty), p ∈ stroke.corners := by
  rw [corners, List.mem_flatMap]
  refine exists_congr fun stroke => ?_
  rw [List.mem_filter, and_assoc]
  refine and_congr_right fun _ => (and_iff_right_of_imp fun hp => ?_).symm
  cases hc : stroke.corners with
  | nil =>
    rw [hc] at hp
    cases hp
  | cons q qs => rfl

/-- A stroke widens the box by its finite corners. -/
private theorem widen_encloses {box? : Option Bounds} {front : List Point} (h : Bounds.Encloses box? front) {stroke : Stroke}
    (traced : ∃ ps, stroke.shape.points 1 = .ok ps) :
    ∃ next?, widen box? stroke = .ok next? ∧ Bounds.Encloses next? (front ++ stroke.corners) := by
  obtain ⟨ps, hps⟩ := traced
  have hstroke := Bounds.encloses_ofPoints ps
  have hcorners : stroke.corners = ps.filter Point.isFinite := by rw [Stroke.corners, hps]
  rw [widen, Shape.bounds, hps, hcorners]
  refine ⟨_, rfl, ?_⟩
  generalize Bounds.ofPoints ps = other?, ps.filter Point.isFinite = qs at hstroke
  cases h with
  | nothing => rwa [List.nil_append]
  | box spans =>
    cases hstroke with
    | nothing =>
      rw [List.append_nil]
      exact .box spans
    | box spans' => exact .box (spans.join spans')

private theorem boundsOf_encloses {strokes : List Stroke} (traced : ∀ stroke ∈ strokes, ∃ ps, stroke.shape.points 1 = .ok ps) :
    ∃ box?, boundsOf strokes = .ok box? ∧ Bounds.Encloses box? (strokes.flatMap Stroke.corners) := by
  have hfold (box? : Option Bounds) (front : List Point) (h : Bounds.Encloses box? front) :
      ∃ next?, strokes.foldlM widen box? = .ok next? ∧
        Bounds.Encloses next? (front ++ strokes.flatMap Stroke.corners) := by
    induction strokes generalizing box? front with
    | nil => exact ⟨box?, rfl, by rwa [List.flatMap_nil, List.append_nil]⟩
    | cons stroke strokes ih =>
      obtain ⟨next?, hnext, hencloses⟩ := widen_encloses h (traced stroke List.mem_cons_self)
      rw [List.foldlM_cons, hnext, List.flatMap_cons, ← List.append_assoc]
      exact ih (fun other hother => traced other (List.mem_cons_of_mem stroke hother)) next? _ hencloses
  exact hfold none [] .nothing

/-- A box around nothing, which begins beyond every number and ends before every number. -/
def nowhere : Bounds :=
  ⟨⟨infinity, infinity⟩, ⟨-infinity, -infinity⟩⟩

def stretch (box : Bounds) (stroke : Stroke) : Except ArithmeticError Bounds :=
  stroke.shape.bounds.map fun other? => other?.elim box box.join

/-- The box around everything on a surface, by a fold that begins nowhere. Where it ends tells whether it has met a box. -/
def sentinelBounds (s : Surface) : Except ArithmeticError Bounds :=
  (s.strokes.foldlM stretch nowhere).map fun box => if box.low.x == infinity then .nothing else box

/-- A box that may be missing, and the box of the fold from nowhere. -/
inductive Stretched : Option Bounds → Bounds → Prop where
  | nowhere : Stretched none nowhere
  | box {box : Bounds} {ps : List Point} (spans : box.Spans ps) : Stretched (some box) box

private theorem between_infinities {v : Float} (hv : v.isFinite = true) :
    v < infinity ∧ -infinity < v ∧ (v == infinity) = false := by
  have hlt (a b : Float) : a < b ↔ UnpackedFloat.lt a.toModel.unpack b.toModel.unpack = true := decide_eq_true_iff
  rw [hlt, hlt, show infinity.toModel.unpack = .infinity .positive from rfl,
    show (-infinity).toModel.unpack = .infinity .negative from rfl]
  change _ ∧ _ ∧ UnpackedFloat.beq v.toModel.unpack (.infinity .positive) = false
  rw [Finite.isFinite_eq] at hv
  generalize v.toModel.unpack = u at hv ⊢
  cases u with
  | notANumber => cases hv
  | infinity s => cases hv
  | _ => exact ⟨rfl, rfl, rfl⟩

private theorem join_nowhere {box : Bounds} {ps : List Point} (h : box.Spans ps) : nowhere.join box = box := by
  obtain ⟨⟨lx, ly⟩, ⟨hx, hy⟩⟩ := box
  have hlow (axis : Axis) := between_infinities (isFinite_coordinates axis h.finite _ (h.low axis).1)
  have hhigh (axis : Axis) := between_infinities (isFinite_coordinates axis h.finite _ (h.high axis).1)
  have hleft : lx < infinity := (hlow .x).1
  have hbottom : ly < infinity := (hlow .y).1
  have hright : -infinity < hx := (hhigh .x).2.1
  have htop : -infinity < hy := (hhigh .y).2.1
  have hlesser {a b : Float} (hlt : b < a) : lesser a b = b := if_pos hlt
  have hgreater {a b : Float} (hlt : a < b) : greater a b = b := if_pos hlt
  simp only [Bounds.join, nowhere, hlesser hleft, hlesser hbottom, hgreater hright, hgreater htop]

private theorem Stretched.step {box? : Option Bounds} {box : Bounds} (h : Stretched box? box) {stroke : Stroke}
    {ps : List Point} (hps : stroke.shape.points 1 = .ok ps) :
    ∃ next? next, widen box? stroke = .ok next? ∧ stretch box stroke = .ok next ∧ Stretched next? next := by
  rw [widen, stretch, Shape.bounds, hps]
  refine ⟨_, _, rfl, rfl, ?_⟩
  have hother := Bounds.encloses_ofPoints ps
  generalize Bounds.ofPoints ps = other?, ps.filter Point.isFinite = qs at hother
  cases h with
  | nowhere =>
    cases hother with
    | nothing => exact .nowhere
    | @box other _ spans =>
      change Stretched (some other) (Surface.nowhere.join other)
      rw [join_nowhere spans]
      exact .box spans
  | box spans =>
    cases hother with
    | nothing => exact .box spans
    | box spans' => exact .box (spans.join spans')

private theorem Stretched.getD {box? : Option Bounds} {box : Bounds} (h : Stretched box? box) :
    box?.getD .nothing = if box.low.x == infinity then .nothing else box := by
  cases h with
  | nowhere => rfl
  | box spans =>
    have hfinite : box.low.x.isFinite = true := isFinite_coordinates .x spans.finite _ (spans.low .x).1
    rw [Option.getD_some, (between_infinities hfinite).2.2]
    rfl

private theorem Stretched.foldlM {box? : Option Bounds} {box : Bounds} (h : Stretched box? box) (strokes : List Stroke) :
    (strokes.foldlM widen box?).map (·.getD .nothing) =
      (strokes.foldlM stretch box).map fun box => if box.low.x == infinity then .nothing else box := by
  induction strokes generalizing box? box with
  | nil => exact congrArg Except.ok h.getD
  | cons stroke strokes ih =>
    rw [List.foldlM_cons, List.foldlM_cons]
    cases hps : stroke.shape.points 1 with
    | error reason =>
      rw [widen, stretch, Shape.bounds, hps]
      rfl
    | ok ps =>
      obtain ⟨next?, next, hwiden, hstretch, hnext⟩ := h.step hps
      rw [hwiden, hstretch]
      exact ih hnext

/-- The box around a surface is that of the fold from nowhere, since no stroke has a box out of the range of numbers. -/
theorem bounds_eq_sentinelBounds (s : Surface) : s.bounds = s.sentinelBounds :=
  Stretched.nowhere.foldlM s.strokes

/-- The box around a surface goes from the least to the greatest coordinate of the finite corners of its strokes, which
are the very numbers of some corners. Without such a corner it stands at the origin. Strokes without corners and another
order of the strokes leave its values as they are. -/
theorem bounds_span_corners (s : Surface) (traced : s.Traced) :
    ∃ box, s.bounds = .ok box ∧
      (s.corners = [] → box = ⟨⟨0, 0⟩, ⟨0, 0⟩⟩) ∧
      (s.corners ≠ [] → box.Spans s.corners ∧ ∀ axis, box.low.along axis ≤ box.high.along axis) ∧
      ∀ other : Surface, other.Traced →
        (s.strokes.filter (!·.corners.isEmpty)).Perm (other.strokes.filter (!·.corners.isEmpty)) →
        ∃ box', other.bounds = .ok box' ∧ ∀ axis,
          toRat (box.low.along axis) = toRat (box'.low.along axis) ∧
          toRat (box.high.along axis) = toRat (box'.high.along axis) := by
  obtain ⟨box?, hbox, hencloses⟩ := boundsOf_encloses traced
  have hok {t : Surface} {found? : Option Bounds} (h : boundsOf t.strokes = .ok found?) :
      t.bounds = .ok (found?.getD .nothing) := by
    rw [bounds, h]
    rfl
  refine ⟨box?.getD .nothing, hok hbox, fun hnone => ?_, fun hsome => ?_, fun other traced' perm => ?_⟩
  · rw [corners] at hnone
    rw [hnone] at hencloses
    rw [hencloses.eq_none]
    rfl
  · obtain ⟨box, rfl, hspans⟩ := hencloses.eq_some hsome
    exact ⟨hspans, hspans.low_le_high⟩
  · obtain ⟨box'?, hbox', hencloses'⟩ := boundsOf_encloses traced'
    refine ⟨box'?.getD .nothing, hok hbox', fun axis => ?_⟩
    have hsame (p : Point) : p ∈ s.corners ↔ p ∈ other.corners := by
      simp only [mem_corners, perm.mem_iff]
    by_cases hnone : s.corners = []
    · have hnone' : other.corners = [] := by
        rw [List.eq_nil_iff_forall_not_mem] at hnone ⊢
        exact fun p hp => hnone p ((hsame p).mpr hp)
      rw [corners] at hnone hnone'
      rw [hnone] at hencloses
      rw [hnone'] at hencloses'
      rw [hencloses.eq_none, hencloses'.eq_none]
      exact ⟨rfl, rfl⟩
    · have hsome : other.corners ≠ [] := by
        obtain ⟨p, hp⟩ := List.exists_mem_of_ne_nil _ hnone
        exact List.ne_nil_of_mem ((hsame p).mp hp)
      obtain ⟨box, rfl, hspans⟩ := hencloses.eq_some hnone
      obtain ⟨box', rfl, hspans'⟩ := hencloses'.eq_some hsome
      exact hspans.toRat_eq hspans' hsame axis

/-- A line, a line out of range and an arc that leaves the range of numbers on its way. The other surface has the same
strokes in another order, with one more line out of range. -/
theorem bounds_span_corners_overflowing :
    let line : Stroke := ⟨0, 1, .line ⟨3, 0⟩ ⟨-1, 2⟩⟩
    let outside : Stroke := ⟨1, 1, .line ⟨-7, 0⟩ ⟨infinity, 1⟩⟩
    let arc : Stroke := ⟨2, 1, .arc ⟨⟨1e308, 0⟩, 8e307, 0, 0.13, false⟩⟩
    let s : Surface := ⟨.whole 800, .whole 600, [arc, outside, line], 1, .identity⟩
    let other : Surface := ⟨.whole 800, .whole 600, [line, outside, arc, outside], 1, .identity⟩
    s.Traced ∧ other.Traced ∧ s.strokes.map (·.corners.length) = [2, 0, 4] ∧
    ∃ box box', s.bounds = .ok box ∧ other.bounds = .ok box' ∧ box.Spans s.corners ∧ box.low = ⟨-1, 0⟩ ∧ ∀ axis,
      toRat (box.low.along axis) = toRat (box'.low.along axis) ∧
      toRat (box.high.along axis) = toRat (box'.high.along axis) := by
  intro line outside arc s other
  have htraced (t : Surface) (h : t.strokes.all (fun stroke => (stroke.shape.points 1).toOption.isSome) = true) :
      t.Traced := by
    intro stroke hstroke
    have hpoints := List.all_eq_true.mp h stroke hstroke
    cases hps : stroke.shape.points 1 with
    | ok ps => exact ⟨ps, rfl⟩
    | error reason =>
      rw [hps] at hpoints
      cases hpoints
  have hs : s.Traced := htraced s (by decide +kernel)
  have hother : other.Traced := htraced other (by decide +kernel)
  have hcorners : s.strokes.map (·.corners.length) = [2, 0, 4] := by decide +kernel
  have hperm : (s.strokes.filter (!·.corners.isEmpty)).Perm (other.strokes.filter (!·.corners.isEmpty)) := by
    decide +kernel
  have hlow : s.bounds.toOption.map Bounds.low = some ⟨-1, 0⟩ := by decide +kernel
  obtain ⟨box, hbox, -, hspans, hsame⟩ := bounds_span_corners s hs
  obtain ⟨box', hbox', hvalues⟩ := hsame other hother hperm
  rw [hbox] at hlow
  have hne : s.corners ≠ [] := by decide +kernel
  exact ⟨hs, hother, hcorners, box, box', hbox, hbox', (hspans hne).1, Option.some.inj hlow, hvalues⟩

end Surface

end WireCut
