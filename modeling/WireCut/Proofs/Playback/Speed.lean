import WireCut.Proofs.Number.Monotone
import WireCut.Proofs.Playback.Interval

/-! Speeds at which a playback can run. A quotient of a thousand does not grow with its divisor, so the least speed is
the only one that matters. -/
namespace WireCut

namespace Quantity
variable {q low : Quantity}

theorem positive_iff (hq : q.isFinite = true) : (whole 0).lt q = true ↔ 0 < q.value := by
  rw [lt_iff rfl hq, value_whole, Int.cast_zero]

/-- Between zero and one there are only floats. -/
private theorem eq_float (hpos : 0 < q.value) (hlt : q.value < 1) : ∃ v, q = float v := by
  cases q with
  | float v => exact ⟨v, rfl⟩
  | whole n =>
    rw [value_whole] at hpos hlt
    have : 0 < n := by exact_mod_cast hpos
    have : n < 1 := by exact_mod_cast hlt
    omega
  | truth b => cases b <;> simp at hpos hlt

private theorem toRat_thousand : toRat 1000 = 1000 := by
  rw [toRat, thousand_unpack, Binary64.toRat, Binary64.sgn, one_mul, zpow_neg]
  norm_num

private theorem dividing_float {v w : Float} (hw : toRat w ≠ 0) (hfinite : w.isFinite = true) :
    (float w).dividing v = .ok (v / w) := by
  rw [dividing, if_neg fun h => hw ((beq_zero_iff hfinite).mp h)]

/-- When a thousand can be divided by a positive quantity, it can be divided by every greater one. -/
private theorem dividing_mono (hlow : low.isFinite = true) (hpos : 0 < low.value) (hq : q.isFinite = true)
    (hle : low.value ≤ q.value) (h : ∃ v, low.dividing 1000 = .ok v ∧ v.isFinite = true) :
    ∃ v, q.dividing 1000 = .ok v ∧ v.isFinite = true := by
  by_cases hone : q.value < 1
  · -- both are floats
    obtain ⟨w, rfl⟩ := eq_float (hpos.trans_le hle) hone
    obtain ⟨u, rfl⟩ := eq_float hpos (hle.trans_lt hone)
    rw [value_float] at hpos hle
    rw [value_float] at hle
    have hwpos : 0 < toRat w := hpos.trans_le hle
    obtain ⟨v, hv, hfinite⟩ := h
    rw [dividing_float hpos.ne' hlow] at hv
    cases hv
    refine ⟨_, dividing_float hwpos.ne' hq, ?_⟩
    refine ((Nearest.div (v := 1000) rfl hq hwpos.ne').mono (Nearest.div rfl hlow hpos.ne') ?_ hfinite).1
    rw [toRat_thousand, abs_of_pos (by positivity), abs_of_pos (by positivity)]
    exact div_le_div_of_nonneg_left (by norm_num) hpos hle
  · refine dividing_thousand hq ?_
    rw [← Bool.not_eq_true, lt_iff hq rfl, value_whole, Int.cast_one]
    exact hone

private theorem whole_nearest_nonneg {n : ℤ} (h : 0 ≤ n) : 0 ≤ toRat (whole n).nearest := by
  have hstored := Exact.stored_nearest (n < 0) n.natAbs 0
  rw [decide_eq_false (not_lt.mpr h), if_neg Bool.false_ne_true] at hstored
  rw [nearest, toRat, decide_eq_false (not_lt.mpr h)]
  generalize (Exact.nearest false n.natAbs 0).toModel.unpack = u at hstored
  cases hstored with
  | zero => exact le_rfl
  | infinity => exact le_rfl
  | finite M E hM => exact mul_nonneg zero_le_one (by positivity)

/-- No quantity that is above zero or without a value has a nearest float below zero. -/
theorem nearest_nonneg (h : (whole 0).lt q = true ∨ q.exact = .notANumber) : 0 ≤ toRat q.nearest := by
  cases q with
  | truth b => cases b <;> decide +kernel
  | whole n =>
    obtain hlt | hnone := h
    · rw [positive_iff rfl, value_whole] at hlt
      exact whole_nearest_nonneg (by exact_mod_cast hlt.le)
    · cases hnone
  | float v =>
    rw [nearest]
    cases hv : v.isFinite with
    | false => exact (toRat_of_not_isFinite hv).ge
    | true =>
      obtain hlt | hnone := h
      · rw [positive_iff (q := .float v) hv, value_float] at hlt
        exact hlt.le
      · obtain ⟨s, m, e, hexact⟩ := Exact.ofFloat_of_isFinite hv
        rw [exact, hexact] at hnone
        cases hnone

/-- A thousand divided by a positive quantity is not negative. -/
private theorem dividing_nonneg {v : Float} (hq : q.isFinite = true) (hpos : 0 < q.value) (h : q.dividing 1000 = .ok v) :
    0 ≤ toRat v := by
  have hthousand : 0 ≤ toRat 1000 := by rw [toRat_thousand]; norm_num
  cases q with
  | truth b =>
    cases b <;> cases h
    exact hthousand
  | whole n =>
    rw [value_whole] at hpos
    rw [dividing] at h
    split at h <;> cases h
    exact toRat_div_nonneg rfl hthousand (whole_nearest_nonneg (by exact_mod_cast hpos.le))
  | float w =>
    rw [value_float] at hpos
    rw [dividing_float hpos.ne' hq] at h
    cases h
    exact toRat_div_nonneg rfl hthousand hpos.le

end Quantity

namespace Playback
variable {p : Playback}

structure Timed (p : Playback) : Prop where
  isFinite : p.speed.isFinite = true
  positive : (Quantity.whole 0).lt p.speed = true
  interval : ∃ ms, p.interval = .ok ms ∧ 0 ≤ ms

private theorem timed_of_dividing (hfinite : p.speed.isFinite = true) (hpos : 0 < p.speed.value)
    (h : ∃ v, p.speed.dividing 1000 = .ok v ∧ v.isFinite = true) : p.Timed := by
  obtain ⟨v, hv, hvfinite⟩ := h
  obtain ⟨ms, hms⟩ := Exact.round_of_isFinite hvfinite
  have hnonneg := Quantity.dividing_nonneg hfinite hpos hv
  refine ⟨hfinite, (Quantity.positive_iff hfinite).mpr hpos, ms, ?_, (Exact.of_round hms).2 hnonneg⟩
  rw [interval, hv]
  exact hms

private theorem Timed.dividing (h : p.Timed) : ∃ v, p.speed.dividing 1000 = .ok v ∧ v.isFinite = true := by
  obtain ⟨ms, hms, -⟩ := h.interval
  rw [Playback.interval] at hms
  cases hv : p.speed.dividing 1000 with
  | error reason =>
    rw [hv] at hms
    cases hms
  | ok v =>
    rw [hv] at hms
    exact ⟨v, rfl, (Exact.of_round hms).1⟩

/-- A playback that can run at its least speed can run at every speed that it is given. -/
theorem setSpeed_timed (hfinite : p.setup.minimumSpeed.isFinite = true) (hpos : 0 < p.setup.minimumSpeed.value)
    (hdividing : ∃ v, p.setup.minimumSpeed.dividing 1000 = .ok v ∧ v.isFinite = true) (speed : Option Quantity) :
    (p.setSpeed speed).Timed := by
  have hleast {q : Playback} (hq : q.speed = p.setup.minimumSpeed) : q.Timed :=
    timed_of_dividing (hq ▸ hfinite) (hq ▸ hpos) (hq ▸ hdividing)
  cases speed with
  | none => exact hleast rfl
  | some v =>
    rw [setSpeed]
    split
    · exact hleast rfl
    · rename_i hv
      simp only [Bool.or_eq_true, Bool.not_eq_true', not_or, Bool.not_eq_false, Bool.not_eq_true] at hv
      have hle : p.setup.minimumSpeed.value ≤ v.value := by
        rw [← not_lt, ← Quantity.lt_iff hv.1 hfinite, hv.2]
        exact Bool.false_ne_true
      exact timed_of_dividing hv.1 (hpos.trans_le hle) (Quantity.dividing_mono hfinite hpos hv.1 hle hdividing)

/-- A playback can run at every speed that it is given exactly if it can run at its least one. -/
theorem setSpeed_timed_iff (hmin : (Quantity.whole 0).lt p.setup.minimumSpeed = true ∨
      p.setup.minimumSpeed.exact = .notANumber) :
    (∀ speed : Option Quantity, (∀ v ∈ speed, v.fits = true) → (p.setSpeed speed).Timed) ↔
      p.setup.minimumSpeed.isFinite = true ∧ ∃ v, p.setup.minimumSpeed.dividing 1000 = .ok v ∧ v.isFinite = true := by
  constructor
  · intro h
    have hnone := h none nofun
    exact ⟨hnone.isFinite, hnone.dividing⟩
  · rintro ⟨hfinite, hdividing⟩ speed -
    refine setSpeed_timed hfinite ?_ hdividing speed
    obtain hlt | hnone := hmin
    · exact (Quantity.positive_iff hfinite).mp hlt
    · obtain ⟨s, m, e, hexact⟩ := Quantity.exact_of_isFinite hfinite
      rw [hexact] at hnone
      cases hnone

end Playback

end WireCut
