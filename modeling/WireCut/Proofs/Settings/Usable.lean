import WireCut.Proofs.Geometry.Sweep
import WireCut.Proofs.Playback.Speed
import WireCut.Settings.Basic
import WireCut.Settings.File

/-! What the check of a profile comes to. It refuses what is not above zero, but neither a limit without a value nor
one that is out of range for what is computed from it. -/
namespace WireCut

namespace Profile
variable {p : Profile}

/-- A profile from a file has the fields of the object in the file, and has passed the check. -/
theorem load_eq_ok {file : FileContent} (h : load file = .ok p) :
    ∃ cs fields, file.text = .ok cs ∧ Json.read cs = .ok (.obj fields) ∧ ofFields fields = p ∧ p.validate = .ok () := by
  rw [load] at h
  cases htext : file.text with
  | error reason =>
    rw [htext] at h
    cases h
  | ok cs =>
    rw [htext] at h
    simp only [ofText] at h
    split at h
    · cases h
    · cases h
    · cases h
    · rename_i fields hread
      cases hvalid : (ofFields fields).validate with
      | error reason =>
        rw [hvalid] at h
        cases h
      | ok u =>
        rw [hvalid] at h
        cases h
        exact ⟨cs, fields, rfl, hread, rfl, hvalid⟩
    · cases h

theorem load_validate {file : FileContent} (h : load file = .ok p) : p.validate = .ok () := by
  obtain ⟨-, -, -, -, -, hvalid⟩ := load_eq_ok h
  exact hvalid

/-- A setting that passes is a number, above zero or without a value. -/
private theorem checkPositive_ok {s : Setting} (h : p.checkPositive s = .ok ()) :
    ∃ q, (p s).quantity? = some q ∧ ((Quantity.whole 0).lt q = true ∨ q.exact = .notANumber) := by
  rw [checkPositive, Json.number?] at h
  cases hq : (p s).quantity? with
  | none =>
    rw [hq] at h
    cases h
  | some q =>
    rw [hq] at h
    refine ⟨q, rfl, ?_⟩
    cases hle : q.exact.le (.ofInt 0) with
    | true =>
      simp only [Option.map_some, hle, if_true] at h
      cases h
    | false => exact Exact.lt_of_not_le hle

private theorem checkZoom_ok (h : p.checkZoom = .ok ()) :
    ∃ low high, (p .minZoom).quantity? = some low ∧ (p .maxZoom).quantity? = some high ∧
      (Quantity.whole 0).lt low = true ∧ low.exact.le high.exact = true := by
  rw [checkZoom, Json.number?, Json.number?] at h
  cases hlow : (p .minZoom).quantity? with
  | none =>
    rw [hlow] at h
    cases h
  | some low =>
    rw [hlow] at h
    simp only [Option.map_some] at h
    split at h
    · cases h
    · rename_i hpos
      cases hhigh : (p .maxZoom).quantity? with
      | none =>
        rw [hhigh] at h
        cases h
      | some high =>
        rw [hhigh] at h
        simp only [Option.map_some] at h
        split at h
        · rename_i hle
          have hzero : (Exact.ofInt 0).lt low.exact = true := by simpa using hpos
          exact ⟨low, high, rfl, rfl, hzero, hle⟩
        · cases h

private theorem validate_ok (h : p.validate = .ok ()) :
    p.checkPositive .minSpeed = .ok () ∧ p.checkPositive .scale = .ok () ∧ p.checkPositive .arcStepDegrees = .ok () ∧
      p.checkZoom = .ok () := by
  have first {x : Except ProfileError Unit} {f : Unit → Except ProfileError Unit} (h : (x >>= f) = .ok ()) :
      x = .ok () ∧ f () = .ok () := by
    cases x with
    | error reason => cases h
    | ok u => exact ⟨rfl, h⟩
  obtain ⟨hspeed, h⟩ := first h
  obtain ⟨hscale, h⟩ := first h
  obtain ⟨hstep, h⟩ := first h
  exact ⟨hspeed, hscale, hstep, h⟩

end Profile

namespace Settings
variable {p : Profile} {q : Quantity}

private theorem ofProfile_minSpeed (h : (p .minSpeed).quantity? = some q) : (ofProfile p).minSpeed = q := by
  change ((p .minSpeed).quantity?).getD (.whole 1) = q
  rw [h]
  rfl

private theorem ofProfile_arcStepDegrees (h : (p .arcStepDegrees).quantity? = some q) : (ofProfile p).arcStepDegrees = q := by
  change (((p .arcStepDegrees).quantity?).orElse fun _ => (Profile.default .arcStepDegrees).quantity?).getD (.whole 0) = q
  rw [h]
  rfl

end Settings

/-- What a profile from a file is good for. The zoom limits are above zero and in order. The least speed, the scale and
the step of arcs are numbers that are above zero or without a value. A session can run at every speed that it is given
exactly if a thousand can be divided by the least speed, which is not checked, and arcs have points exactly if the one
through the whole turn has. -/
theorem Profile.load_usable {file : FileContent} {p : Profile} (h : load file = .ok p) :
    (∃ low high, (p .minZoom).quantity? = some low ∧ (p .maxZoom).quantity? = some high ∧
      (Quantity.whole 0).lt low = true ∧ low.exact.le high.exact = true) ∧
    (∀ s ∈ [Setting.minSpeed, .scale, .arcStepDegrees], ∃ q, (p s).quantity? = some q ∧
      ((Quantity.whole 0).lt q = true ↔ q.exact ≠ .notANumber)) ∧
    (∀ playback : Playback, playback.setup.minimumSpeed = (Settings.ofProfile p).minSpeed →
      ((∀ speed : Option Quantity, (∀ v ∈ speed, v.fits = true) → (playback.setSpeed speed).Timed) ↔
        (Settings.ofProfile p).minSpeed.isFinite = true ∧
          ∃ v, (Settings.ofProfile p).minSpeed.dividing 1000 = .ok v ∧ v.isFinite = true)) ∧
    ((∀ a : Arc, a.WithinTurn → a.Drawable (Settings.ofProfile p).arcStepDegrees) ↔
      Arc.fullTurn.Drawable (Settings.ofProfile p).arcStepDegrees) := by
  obtain ⟨hspeed, hscale, hstep, hzoom⟩ := validate_ok (load_validate h)
  obtain ⟨speed, hspeed', hspeedpos⟩ := checkPositive_ok hspeed
  obtain ⟨step, hstep', hsteppos⟩ := checkPositive_ok hstep
  refine ⟨checkZoom_ok hzoom, fun s hs => ?_, fun playback hsetup => ?_, ?_⟩
  · have hcheck : p.checkPositive s = .ok () := by
      simp only [List.mem_cons, List.not_mem_nil, or_false] at hs
      obtain rfl | rfl | rfl := hs
      · exact hspeed
      · exact hscale
      · exact hstep
    obtain ⟨q, hq, hpos⟩ := checkPositive_ok hcheck
    refine ⟨q, hq, fun hlt hnone => ?_, hpos.resolve_right⟩
    have : (Exact.ofInt 0).lt q.exact = true := hlt
    rw [hnone] at this
    cases this
  · rw [Settings.ofProfile_minSpeed hspeed'] at hsetup ⊢
    rw [← hsetup] at hspeedpos ⊢
    exact Playback.setSpeed_timed_iff hspeedpos
  · rw [Settings.ofProfile_arcStepDegrees hstep']
    refine ⟨fun h => h _ Arc.fullTurn_withinTurn, fun h a ha => ?_⟩
    exact ha.drawable (Quantity.nearest_nonneg hsteppos) h

/-- A file with two of its limits given as whole numbers. -/
theorem Profile.load_usable_whole :
    let file := FileContent.bytes "\x7b\"min_speed\": 2, \"arc_step_degrees\": 3\x7d".toUTF8
    ∃ p, load file = .ok p ∧
    (∃ low high, (p .minZoom).quantity? = some low ∧ (p .maxZoom).quantity? = some high ∧
      (Quantity.whole 0).lt low = true ∧ low.exact.le high.exact = true) ∧
    (∀ s ∈ [Setting.minSpeed, .scale, .arcStepDegrees], ∃ q, (p s).quantity? = some q ∧
      ((Quantity.whole 0).lt q = true ↔ q.exact ≠ .notANumber)) ∧
    (∀ playback : Playback, playback.setup.minimumSpeed = (Settings.ofProfile p).minSpeed →
      ((∀ speed : Option Quantity, (∀ v ∈ speed, v.fits = true) → (playback.setSpeed speed).Timed) ↔
        (Settings.ofProfile p).minSpeed.isFinite = true ∧
          ∃ v, (Settings.ofProfile p).minSpeed.dividing 1000 = .ok v ∧ v.isFinite = true)) ∧
    ((∀ a : Arc, a.WithinTurn → a.Drawable (Settings.ofProfile p).arcStepDegrees) ↔
      Arc.fullTurn.Drawable (Settings.ofProfile p).arcStepDegrees) := by
  intro file
  have hread : (load file).toOption.isSome = true := by decide +kernel
  cases h : load file with
  | error reason =>
    rw [h] at hread
    cases hread
  | ok p => exact ⟨p, rfl, load_usable h⟩

/-- A least speed without a value passes the check, although it is not above zero, and no session can run at it. -/
theorem Profile.load_without_value :
    ∃ p q, load (.bytes "\x7b\"min_speed\": NaN\x7d".toUTF8) = .ok p ∧ (p .minSpeed).quantity? = some q ∧
      (Quantity.whole 0).lt q = false ∧
      ∀ playback : Playback, playback.setup.minimumSpeed = q →
        (playback.setSpeed none).speed.isFinite = false ∧
          (playback.setSpeed none).interval = .error .undefinedInteger := by
  have hread : ((load (.bytes "\x7b\"min_speed\": NaN\x7d".toUTF8)).toOption.map fun p => (p .minSpeed).quantity?) =
      some (some (.float notANumber)) := by decide +kernel
  cases h : load (.bytes "\x7b\"min_speed\": NaN\x7d".toUTF8) with
  | error reason =>
    rw [h] at hread
    cases hread
  | ok p =>
    rw [h] at hread
    refine ⟨p, .float notANumber, rfl, Option.some_inj.mp hread, by decide +kernel, fun playback hmin => ?_⟩
    have hspeed : (playback.setSpeed none).speed = .float notANumber := hmin
    rw [Playback.interval, hspeed]
    exact ⟨by decide +kernel, by decide +kernel⟩

end WireCut
