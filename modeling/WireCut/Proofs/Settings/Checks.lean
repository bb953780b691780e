import WireCut.Proofs.Number.Place
import WireCut.Settings.File

/-! The faults of a profile, stated by the places of its numbers. The check of a profile gives the first one. -/
namespace WireCut

namespace Profile

/-- What is wrong with a setting that has to be above zero. A number without a place is not refused. -/
inductive PositiveFault (p : Profile) (s : Setting) : ProfileError → Prop where
  | unordered (number : (p s).number? = none) : PositiveFault p s .unordered
  | notPositive {v : Exact} {x : WithBot (WithTop ℚ)} (number : (p s).number? = some v) (place : v.place? = some x)
      (le : x ≤ 0) : PositiveFault p s (.notPositive s)

inductive ZoomFault (p : Profile) : ProfileError → Prop where
  | lowUnordered (low : (p .minZoom).number? = none) : ZoomFault p .unordered
  | notPositive {v : Exact} (low : (p .minZoom).number? = some v) (bound : ∀ x ∈ v.place?, ¬0 < x) :
      ZoomFault p .zoomLimits
  | highUnordered {v : Exact} {x : WithBot (WithTop ℚ)} (low : (p .minZoom).number? = some v) (place : v.place? = some x)
      (pos : 0 < x) (high : (p .maxZoom).number? = none) : ZoomFault p .unordered
  | disordered {v w : Exact} {x : WithBot (WithTop ℚ)} (low : (p .minZoom).number? = some v) (place : v.place? = some x)
      (pos : 0 < x) (high : (p .maxZoom).number? = some w) (bound : ∀ y ∈ w.place?, ¬x ≤ y) : ZoomFault p .zoomLimits

/-- The first fault in a list of faults of which each one is only looked for if there is none before it. -/
inductive First : List (ProfileError → Prop) → ProfileError → Prop where
  | here {fault : ProfileError → Prop} {faults : List (ProfileError → Prop)} {reason : ProfileError} (is : fault reason) :
      First (fault :: faults) reason
  | later {fault : ProfileError → Prop} {faults : List (ProfileError → Prop)} {reason : ProfileError}
      (pass : ∀ reason, ¬fault reason) (is : First faults reason) : First (fault :: faults) reason

def faults (p : Profile) : List (ProfileError → Prop) :=
  [p.PositiveFault .minSpeed, p.PositiveFault .scale, p.PositiveFault .arcStepDegrees, p.ZoomFault]

variable {p : Profile} {reason : ProfileError}

private theorem place?_zero : (Exact.ofInt 0).place? = some 0 :=
  Exact.place?_ofInt 0

private theorem checkPositive_eq_error {s : Setting} : p.checkPositive s = .error reason ↔ p.PositiveFault s reason := by
  rw [checkPositive]
  constructor
  · intro h
    split at h
    · rename_i hnumber
      cases h
      exact .unordered hnumber
    · rename_i v hnumber
      split at h
      · rename_i hle
        cases h
        obtain ⟨x, hx, y, hy, hle⟩ := Exact.le_iff.mp hle
        cases place?_zero.symm.trans hy
        exact .notPositive hnumber hx hle
      · cases h
  · intro h
    cases h with
    | unordered number => rw [number]
    | notPositive number place le =>
      rw [number]
      exact if_pos (Exact.le_iff.mpr ⟨_, place, 0, place?_zero, le⟩)

private theorem checkZoom_eq_error : p.checkZoom = .error reason ↔ p.ZoomFault reason := by
  rw [checkZoom]
  constructor
  · intro h
    split at h
    · rename_i hlow
      cases h
      exact .lowUnordered hlow
    · rename_i v hlow
      split at h
      · rename_i hpos
        cases h
        refine .notPositive hlow fun x hx hlt => ?_
        have hbelow : (Exact.ofInt 0).lt v = true := Exact.lt_iff.mpr ⟨0, place?_zero, x, hx, hlt⟩
        rw [hbelow] at hpos
        cases hpos
      · rename_i hpos
        obtain ⟨z, hz, x, hx, hlt⟩ := Exact.lt_iff.mp (by simpa using hpos)
        cases place?_zero.symm.trans hz
        split at h
        · rename_i hhigh
          cases h
          exact .highUnordered hlow hx hlt hhigh
        · rename_i w hhigh
          split at h
          · cases h
          · rename_i hle
            cases h
            exact .disordered hlow hx hlt hhigh fun y hy hxy => hle (Exact.le_iff.mpr ⟨x, hx, y, hy, hxy⟩)
  · intro h
    have habove {v : Exact} {x : WithBot (WithTop ℚ)} (place : v.place? = some x) (pos : 0 < x) :
        (Exact.ofInt 0).lt v = true := Exact.lt_iff.mpr ⟨0, place?_zero, x, place, pos⟩
    cases h with
    | lowUnordered low => rw [low]
    | @notPositive v low bound =>
      have hfalse : (Exact.ofInt 0).lt v = false := Bool.eq_false_iff.mpr fun hlt => by
        obtain ⟨z, hz, x, hx, hlt⟩ := Exact.lt_iff.mp hlt
        cases place?_zero.symm.trans hz
        exact bound x hx hlt
      rw [low]
      dsimp only
      rw [hfalse]
      rfl
    | highUnordered low place pos high =>
      rw [low, high]
      dsimp only
      rw [habove place pos]
      rfl
    | @disordered v w x low place pos high bound =>
      have hfalse : v.le w = false := Bool.eq_false_iff.mpr fun hle => by
        obtain ⟨x', hx, y, hy, hle⟩ := Exact.le_iff.mp hle
        cases place.symm.trans hx
        exact bound y hy hle
      rw [low, high]
      dsimp only
      rw [habove place pos, hfalse]
      rfl

private theorem first_singleton {fault : ProfileError → Prop} : First [fault] reason ↔ fault reason := by
  constructor
  · intro h
    cases h with
    | here is => exact is
    | later pass is => cases is
  · exact .here

/-- A check before others finds the first fault if it finds one. -/
private theorem bind_eq_error {x y : Except ProfileError Unit} {fault : ProfileError → Prop} {faults : List (ProfileError → Prop)}
    (hx : ∀ reason, x = .error reason ↔ fault reason) (hy : ∀ reason, y = .error reason ↔ First faults reason)
    (reason : ProfileError) : (x >>= fun _ => y) = .error reason ↔ First (fault :: faults) reason := by
  constructor
  · intro h
    cases x with
    | error r =>
      cases h
      exact .here ((hx _).mp rfl)
    | ok u => exact .later (fun r hr => by cases (hx r).mpr hr) ((hy reason).mp h)
  · intro h
    cases h with
    | here is => rw [(hx reason).mpr is]; rfl
    | later pass is =>
      cases x with
      | error r => exact absurd ((hx r).mp rfl) (pass r)
      | ok u => exact (hy reason).mpr is

/-- The check of a profile gives the first of its faults. -/
theorem validate_eq_error : p.validate = .error reason ↔ First p.faults reason := by
  have hzoom (reason : ProfileError) : p.checkZoom = .error reason ↔ First [p.ZoomFault] reason :=
    checkZoom_eq_error.trans first_singleton.symm
  have hpositive (s : Setting) (reason : ProfileError) : p.checkPositive s = .error reason ↔ p.PositiveFault s reason :=
    checkPositive_eq_error
  have hstep := bind_eq_error (hpositive .arcStepDegrees) hzoom
  have hscale := bind_eq_error (hpositive .scale) hstep
  exact bind_eq_error (hpositive .minSpeed) hscale reason

end Profile
end WireCut
