import WireCut.Proofs.Machine.Replay
import WireCut.Proofs.Number.Angle

/-! Cuts out of range. A cut is reported by its request and drawn by its shape. Both are finite together, except
for an arc on a finite circle whose target is unbounded: it is reported, and drawn all the same. -/
namespace WireCut

/-- Whether a cut is reported as out of range although its shape is finite: its circle is finite, and its target
is infinite but a pair of numbers. -/
def Request.escapes : Request → Bool
  | .arc _ _ stop a =>
    a.center.isFinite && a.radius.isFinite && !stop.x.isNaN && !stop.y.isNaN && !stop.isFinite
  | _ => false

/-- A shape out of range leaves nothing to be seen: it has no points, no length and no box. -/
theorem Shape.invisible {shape : Shape} (h : shape.isFinite = false) :
    shape.length = 0 ∧ (∀ step, shape.points step = .ok []) ∧ shape.bounds = .ok none := by
  have hpoints (step : Float) : shape.points step = .ok [] := by
    cases shape with
    | line start stop =>
      rw [isFinite] at h
      simp [points, h]
    | arc a =>
      rw [isFinite] at h
      simp [points, Arc.points, h]
  refine ⟨?_, hpoints, by rw [bounds, hpoints]; rfl⟩
  cases shape with
  | line start stop =>
    rw [isFinite] at h
    simp [length, h]
  | arc a =>
    rw [isFinite] at h
    simp [length, Arc.length, h]

namespace Machine

/-- An arc is finite exactly when its circle is and its target is a pair of numbers. -/
theorem arcOf_isFinite (m : Machine) (c : Command) (clockwise : Bool) :
    (m.arcOf c clockwise).isFinite =
      ((m.arcOf c clockwise).center.isFinite && (m.arcOf c clockwise).radius.isFinite &&
        !(m.target c).x.isNaN && !(m.target c).y.isNaN) := by
  have hangles (hcenter : (m.arcOf c clockwise).center.isFinite = true) :
      (m.arcOf c clockwise).startAngle.isFinite = true ∧
        (m.arcOf c clockwise).endAngle.isFinite = (!(m.target c).x.isNaN && !(m.target c).y.isNaN) := by
    obtain ⟨hx, hy⟩ := Bool.and_eq_true_iff.mp hcenter
    -- the center is the start and an offset, so the start is finite too
    have hstart : m.position.x.isFinite = true ∧ m.position.y.isFinite = true :=
      ⟨(Finite.of_add hx).1, (Finite.of_add hy).1⟩
    have hfirst : (m.arcOf c clockwise).startAngle = atan2 (m.position.y - (m.arcOf c clockwise).center.y)
        (m.position.x - (m.arcOf c clockwise).center.x) := rfl
    have hlast : (m.arcOf c clockwise).endAngle = atan2 ((m.target c).y - (m.arcOf c clockwise).center.y)
        ((m.target c).x - (m.arcOf c clockwise).center.x) := rfl
    rw [hfirst, hlast, Finite.atan2_isFinite, Finite.atan2_isFinite]
    rw [Finite.sub_isNaN _ hx, Finite.sub_isNaN _ hy, Finite.sub_isNaN _ hx, Finite.sub_isNaN _ hy]
    rw [Finite.isNaN_of_isFinite hstart.1, Finite.isNaN_of_isFinite hstart.2,
      Bool.and_comm (!(m.target c).y.isNaN)]
    exact ⟨rfl, rfl⟩
  cases hcenter : (m.arcOf c clockwise).center.isFinite with
  | false => simp [Arc.isFinite, hcenter]
  | true =>
    obtain ⟨hfirst, hlast⟩ := hangles hcenter
    simp [Arc.isFinite, hcenter, hfirst, hlast, Bool.and_assoc]

private theorem start_isFinite {m : Machine} {c : Command} {clockwise : Bool}
    (h : (m.arcOf c clockwise).center.isFinite = true) : m.position.isFinite = true := by
  obtain ⟨hx, hy⟩ := Bool.and_eq_true_iff.mp h
  rw [Point.isFinite, (Finite.of_add hx).1, (Finite.of_add hy).1]
  rfl

/-- The request of an arc is finite exactly when its shape is, unless the arc escapes. -/
private theorem arc_isFinite (m : Machine) (c : Command) (clockwise : Bool) :
    (Request.arc c.line m.position (m.target c) (m.arcOf c clockwise)).isFinite =
      ((m.arcOf c clockwise).isFinite &&
        !(Request.arc c.line m.position (m.target c) (m.arcOf c clockwise)).escapes) := by
  have hshape := m.arcOf_isFinite c clockwise
  rw [Request.isFinite, Request.escapes]
  cases hcenter : (m.arcOf c clockwise).center.isFinite with
  | false =>
    rw [hcenter] at hshape
    simp [hshape]
  | true =>
    rw [start_isFinite hcenter, hshape, hcenter]
    cases hstop : (m.target c).isFinite with
    | true =>
      obtain ⟨hx, hy⟩ := Bool.and_eq_true_iff.mp hstop
      rw [Finite.isNaN_of_isFinite hx, Finite.isNaN_of_isFinite hy]
      simp
    | false => simp

/-- A cut asks for one shape, and it is reported exactly when the shape is not finite or the cut escapes. A cut
that escapes has a finite shape. -/
theorem execute_cut (m : Machine) {c : Command} (hcut : c.isCut = true) :
    ∃ r shape, (m.execute c).request = some r ∧ r.shape? = some shape ∧
      (m.execute c).report = (if shape.isFinite && !r.escapes then none else some (outOfRange c)) ∧
      (r.escapes = true → shape.isFinite = true) := by
  unfold execute
  obtain hi | ⟨clockwise, hi⟩ := (isCut_iff c).mp hcut
  · rw [hi]
    refine ⟨_, _, rfl, rfl, ?_, nofun⟩
    simp [perform, Request.isFinite, Request.escapes, Shape.isFinite]
  · rw [hi]
    refine ⟨_, _, rfl, rfl, ?_, ?_⟩
    · simp only [perform, Option.all_some, arc_isFinite]
      rfl
    · intro h
      rw [Shape.isFinite, arcOf_isFinite]
      simp only [Request.escapes, Bool.and_eq_true] at h
      obtain ⟨⟨⟨⟨hcenter, hradius⟩, hx⟩, hy⟩, -⟩ := h
      rw [hcenter, hradius, hx, hy]
      rfl

private theorem execute_other (m : Machine) {c : Command} (hcut : c.isCut = false) :
    (m.execute c).request.bind Request.shape? = none ∧ (m.execute c).request.any Request.escapes = false ∧
      ∀ d, (m.execute c).report = some d → d.kind ≠ .motion := by
  have hiff := isCut_iff c
  rw [hcut] at hiff
  unfold execute
  cases hi : Instruction.ofCode? c.code with
  | none =>
    refine ⟨rfl, rfl, ?_⟩
    rintro d ⟨⟩
    exact nofun
  | some instruction =>
    cases instruction with
    | cut => exact absurd (hiff.mpr (.inl hi)) nofun
    | arc clockwise => exact absurd (hiff.mpr (.inr ⟨clockwise, hi⟩)) nofun
    | _ => exact ⟨rfl, rfl, nofun⟩

/-- The cuts that a list of commands reports are those whose shape is not finite and those that escape. -/
theorem countP_reportsOf (m : Machine) (pen : Pen) (cs : List Command) :
    (m.reportsOf cs).countP (·.kind = .motion) =
      (m.strokesOf pen cs).countP (!·.shape.isFinite) +
        (m.executeAll cs).countP fun done => done.request.any Request.escapes := by
  induction cs generalizing m with
  | nil => rfl
  | cons c cs ih =>
    have hrest := ih (m.execute c).machine
    rw [reportsOf, strokesOf] at hrest ⊢
    rw [executeAll, List.filterMap_cons, List.filterMap_cons, List.countP_cons]
    cases hcut : c.isCut with
    | true =>
      obtain ⟨r, shape, hr, hshape, hreport, hescapes⟩ := m.execute_cut hcut
      have hstroke : pen.stroke? (m.execute c).request = some ⟨r.line, pen.width, shape⟩ := by
        rw [hr, Pen.stroke?, Option.bind_some, hshape]
        rfl
      rw [hreport, hstroke, hr, Option.any_some, List.countP_cons]
      cases hf : shape.isFinite <;> cases he : r.escapes <;> simp_all [outOfRange] <;> omega
    | false =>
      obtain ⟨hshape, hescapes, hreport⟩ := m.execute_other hcut
      have hstroke : pen.stroke? (m.execute c).request = none := by
        cases hr : (m.execute c).request with
        | none => rfl
        | some r =>
          rw [hr, Option.bind_some] at hshape
          rw [Pen.stroke?, Option.bind_some, hshape]
          rfl
      rw [hstroke, hescapes]
      cases hr : (m.execute c).report with
      | none => simpa using hrest
      | some d =>
        have := hreport d hr
        simpa [this] using hrest

end Machine

end WireCut
