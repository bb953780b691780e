import WireCut.Geometry.Stroke
import WireCut.Proofs.Geometry.Trace
import WireCut.Proofs.Number.Monotone

/-! Arcs whose angles are within half a turn of zero. None of them sweeps more than a turn, so the arc through the whole
turn has the most pieces for any step, and a step that is good for it is good for all of them. -/
namespace WireCut

private theorem half_unpack : halfTurn.toModel.unpack = .finite .positive 7074237752028440 (-51) (by decide) := rfl

private theorem toRat_halfTurn : toRat halfTurn = 7074237752028440 / 2 ^ 51 := by
  rw [toRat, half_unpack, Binary64.toRat, Binary64.sgn, one_mul, zpow_neg]
  norm_num

private theorem toRat_turn : toRat turn = 2 * toRat halfTurn := by
  rw [toRat_halfTurn, toRat, turn_unpack, Binary64.toRat, Binary64.sgn, one_mul, zpow_neg]
  norm_num

/-- No two angles within half a turn of zero are more than a turn apart, and rounding does not change that. -/
private theorem sweepBetween_le {start stop : Float} (hstart : start.isFinite = true) (hstop : stop.isFinite = true)
    (hstart' : |toRat start| ≤ toRat halfTurn) (hstop' : |toRat stop| ≤ toRat halfTurn) (clockwise : Bool) :
    (sweepBetween start stop clockwise).isFinite = true ∧ |toRat (sweepBetween start stop clockwise)| ≤ |toRat turn| := by
  have hturn : turn.isFinite = true := rfl
  have hpos : 0 < toRat turn := by
    rw [toRat_turn, toRat_halfTurn]
    norm_num
  have hmodulo {a b : Float} (ha : a.isFinite = true) (hb : b.isFinite = true) (ha' : |toRat a| ≤ toRat halfTurn)
      (hb' : |toRat b| ≤ toRat halfTurn) :
      (modulo (a - b) turn).isFinite = true ∧ |toRat (modulo (a - b) turn)| ≤ |toRat turn| := by
    have hle : |toRat a - toRat b| ≤ |toRat turn| := by
      rw [abs_of_pos hpos, toRat_turn]
      have := abs_sub (toRat a) (toRat b)
      linarith
    obtain ⟨hfinite, hvalue⟩ := (Nearest.sub ha hb).mono (Nearest.self hturn) hle hturn
    exact modulo_le hfinite hturn hpos (hvalue.trans_eq (abs_of_pos hpos))
  cases clockwise with
  | true =>
    obtain ⟨hfinite, hle⟩ := hmodulo hstart hstop hstart' hstop'
    obtain ⟨hneg, hvalue⟩ := toRat_neg hfinite
    exact ⟨hneg, by rw [sweepBetween, if_pos rfl, hvalue, abs_neg]; exact hle⟩
  | false => exact hmodulo hstop hstart hstop' hstart'

namespace Arc

structure WithinTurn (a : Arc) : Prop where
  finite : a.isFinite = true
  start : -halfTurn ≤ a.startAngle ∧ a.startAngle ≤ halfTurn
  stop : -halfTurn ≤ a.endAngle ∧ a.endAngle ≤ halfTurn

/-- An arc that ends so close to its start that its sweep is rounded to the whole turn. -/
def fullTurn : Arc := ⟨⟨0, 0⟩, 1, 0, -1e-20, false⟩

def corner (a : Arc) (n i : ℕ) : Float :=
  a.startAngle + a.sweep * Float.ofNat i / Float.ofNat n

structure Drawable (a : Arc) (step : Quantity) : Prop where
  points_ok : ∃ ps, a.pointsBy step = .ok ps
  corner_isFinite : ∀ n, a.isCut = true → a.pieces step.nearest = .ok n → ∀ i ≤ n, (a.corner n i).isFinite = true

variable {a : Arc} {step : Quantity}

private theorem fullTurn_isCut : fullTurn.isCut = true := by decide +kernel

private theorem fullTurn_sweep : fullTurn.sweep = turn := by decide +kernel

theorem fullTurn_withinTurn : fullTurn.WithinTurn :=
  ⟨rfl, by decide +kernel, by decide +kernel⟩

private theorem pointsBy_eq (hcut : a.isCut = true) (hfits : step.fits = true) : a.pointsBy step =
    (a.pieces step.nearest).map fun n => (List.range (n + 1)).map fun i => a.pointAt (a.corner n i) := by
  rw [isCut, Bool.and_eq_true, Bool.not_eq_true'] at hcut
  rw [pointsBy, hfits, Bool.not_true, Bool.and_false, if_neg Bool.false_ne_true, points, hcut.1, Bool.not_true,
    if_neg Bool.false_ne_true]
  simp only [hcut.2, Bool.false_eq_true, if_false]
  rfl

private theorem drawable_of_not_isCut (h : a.isCut = false) : a.Drawable step := by
  refine ⟨?_, fun n hcut => by rw [h] at hcut; cases hcut⟩
  rw [pointsBy, h, Bool.false_and, if_neg Bool.false_ne_true, points]
  rw [isCut] at h
  cases hfinite : a.isFinite with
  | false => exact ⟨_, rfl⟩
  | true =>
    rw [hfinite, Bool.true_and, Bool.not_eq_false'] at h
    exact ⟨_, by simp only [Bool.not_true, Bool.false_eq_true, if_false, h, if_true]; rfl⟩

private theorem drawable_iff (hcut : a.isCut = true) : a.Drawable step ↔
    step.fits = true ∧ ∃ n, a.pieces step.nearest = .ok n ∧ ∀ i ≤ n, (a.corner n i).isFinite = true := by
  constructor
  · intro h
    obtain ⟨ps, hps⟩ := h.points_ok
    have hfits : step.fits = true := by
      cases hfits : step.fits with
      | true => rfl
      | false =>
        rw [pointsBy, hcut, hfits, Bool.not_false, Bool.and_true, if_pos rfl] at hps
        cases hps
    rw [pointsBy_eq hcut hfits] at hps
    cases hn : a.pieces step.nearest with
    | error reason =>
      rw [hn] at hps
      cases hps
    | ok n => exact ⟨hfits, n, rfl, h.corner_isFinite n hcut hn⟩
  · rintro ⟨hfits, n, hn, hcorners⟩
    refine ⟨⟨_, by rw [pointsBy_eq hcut hfits, hn]; rfl⟩, fun k _ hk => ?_⟩
    rw [hn] at hk
    cases hk
    exact hcorners

private theorem eight_unpack : (Float.ofNat 8).toModel.unpack = .finite .positive (2 ^ 52) (-49) (by decide) := rfl

namespace WithinTurn

private theorem angle_le {angle : Float} (hfinite : angle.isFinite = true) (h : -halfTurn ≤ angle ∧ angle ≤ halfTurn) :
    |toRat angle| ≤ toRat halfTurn := by
  obtain ⟨hneg, hvalue⟩ := toRat_neg (v := halfTurn) rfl
  have hlow := (le_iff hneg hfinite).mp h.1
  have hhigh := (le_iff hfinite rfl).mp h.2
  rw [hvalue] at hlow
  exact abs_le.mpr ⟨hlow, hhigh⟩

private theorem start_isFinite (h : a.WithinTurn) : a.startAngle.isFinite = true ∧ a.endAngle.isFinite = true := by
  have := h.finite
  simp only [isFinite, Bool.and_eq_true] at this
  exact ⟨this.1.2, this.2⟩

private theorem sweep_le (h : a.WithinTurn) : a.sweep.isFinite = true ∧ |toRat a.sweep| ≤ |toRat fullTurn.sweep| := by
  obtain ⟨hstart, hstop⟩ := h.start_isFinite
  rw [fullTurn_sweep]
  exact sweepBetween_le hstart hstop (angle_le hstart h.start) (angle_le hstop h.stop) _

/-- The angle that an arc sweeps, in degrees, is at most that of the whole turn. -/
private theorem degrees_le (h : a.WithinTurn) : (degrees a.sweep).abs.isFinite = true ∧
    |toRat (degrees a.sweep).abs| ≤ |toRat (degrees fullTurn.sweep).abs| := by
  have hdegree : (180 / halfTurn).isFinite = true := rfl
  have hfull : (degrees fullTurn.sweep).isFinite = true := by rw [fullTurn_sweep]; rfl
  obtain ⟨hsweep, hle⟩ := h.sweep_le
  have hproduct : |toRat a.sweep * toRat (180 / halfTurn)| ≤ |toRat fullTurn.sweep * toRat (180 / halfTurn)| := by
    rw [abs_mul, abs_mul]
    exact mul_le_mul_of_nonneg_right hle (abs_nonneg _)
  obtain ⟨hfinite, hvalue⟩ := (Nearest.mul hsweep hdegree).mono
    (Nearest.mul fullTurn_withinTurn.sweep_le.1 hdegree) hproduct hfull
  obtain ⟨habs, habs'⟩ := toRat_abs hfinite
  simp only [degrees] at hfull ⊢
  rw [habs', (toRat_abs hfull).2, abs_abs, abs_abs]
  exact ⟨habs, hvalue⟩

/-- No arc has more pieces than the one through the whole turn. -/
private theorem pieces_le (h : a.WithinTurn) {size : Float} (hsize : 0 ≤ toRat size) {most : ℕ}
    (hmost : fullTurn.pieces size = .ok most) : ∃ n, a.pieces size = .ok n ∧ 8 ≤ n ∧ n ≤ most := by
  rw [pieces] at hmost ⊢
  split at hmost
  · cases hmost
  · rename_i hzero
    rw [if_neg hzero]
    cases hceil : (Exact.ofFloat ((degrees fullTurn.sweep).abs / size)).ceil with
    | error reason =>
      rw [hceil] at hmost
      cases hmost
    | ok k =>
      rw [hceil] at hmost
      cases hmost
      obtain ⟨hquotient, rfl⟩ := Exact.ceil_eq_ok.mp hceil
      obtain ⟨hdegrees, hle⟩ := h.degrees_le
      obtain ⟨hfinite, hsmaller⟩ := div_le_div hdegrees fullTurn_withinTurn.degrees_le.1 hle hquotient
      have hnonneg : 0 ≤ toRat ((degrees fullTurn.sweep).abs / size) := by
        refine toRat_div_nonneg fullTurn_withinTurn.degrees_le.1 ?_ hsize
        rw [fullTurn_sweep, (toRat_abs rfl).2]
        exact abs_nonneg _
      rw [abs_of_nonneg hnonneg] at hsmaller
      have hceiling := Int.ceil_le_ceil ((le_abs_self _).trans hsmaller)
      exact ⟨_, congrArg _ (Exact.ceil_eq_ok.mpr ⟨hfinite, rfl⟩), by dsimp only; omega, by dsimp only; omega⟩

/-- A corner of an arc is at a finite angle if the last corner of the arc through the whole turn is. -/
private theorem corner_isFinite (h : a.WithinTurn) {most n i : ℕ} (hlow : 8 ≤ n) (hle : n ≤ most) (hi : i ≤ n)
    (hmost : (fullTurn.corner most most).isFinite = true) : (a.corner n i).isFinite = true := by
  have hproduct : (fullTurn.sweep * Float.ofNat most).isFinite = true := Finite.of_div (Finite.of_add hmost).2
  have hcount : (Float.ofNat most).isFinite = true := (Finite.of_mul hproduct).2
  have hcast {j k : ℕ} (hjk : j ≤ k) : |(j : ℚ)| ≤ |(k : ℚ)| := by
    rw [Nat.abs_cast, Nat.abs_cast]
    exact_mod_cast hjk
  obtain ⟨hifinite, hivalue⟩ := (Nearest.natCast i).mono (Nearest.natCast most) (hcast (hi.trans hle)) hcount
  obtain ⟨hnfinite, -⟩ := (Nearest.natCast n).mono (Nearest.natCast most) (hcast hle) hcount
  obtain ⟨-, height⟩ := (Nearest.natCast 8).mono (Nearest.natCast n) (hcast hlow) hnfinite
  have hreaches : Reaches 3 (Float.ofNat n) := by
    have htoRat : toRat (Float.ofNat 8) = 8 := by
      rw [toRat, eight_unpack, Binary64.toRat, Binary64.sgn]
      norm_num
    refine reaches_of_le hnfinite (le_trans ?_ height)
    rw [htoRat]
    norm_num
  obtain ⟨hsweep, hsize⟩ := h.sweep_le
  have hpart : (a.sweep * Float.ofNat i).isFinite = true := by
    refine ((Nearest.mul hsweep hifinite).mono (Nearest.mul fullTurn_withinTurn.sweep_le.1 hcount) ?_ hproduct).1
    rw [abs_mul, abs_mul]
    exact mul_le_mul hsize hivalue (abs_nonneg _) (abs_nonneg _)
  have hquotient : Within 1022 (a.sweep * Float.ofNat i / Float.ofNat n) :=
    (within_of_isFinite hpart).div hreaches (i := 1021) (by decide) (by decide) (by decide)
  have hstart : Within 1022 a.startAngle := by
    refine within_of_lt h.start_isFinite.1 ((angle_le h.start_isFinite.1 h.start).trans_lt ?_)
    have hfour : toRat halfTurn < 2 ^ (2 : ℤ) := by
      rw [toRat_halfTurn]
      norm_num
    exact hfour.trans (zpow_lt_zpow_right₀ one_lt_two (by decide))
  exact (hstart.add hquotient (by decide) (by decide)).isFinite

/-- A step that is good for the arc through the whole turn is good for every arc. -/
theorem drawable (h : a.WithinTurn) (hstep : 0 ≤ toRat step.nearest) (hfull : fullTurn.Drawable step) :
    a.Drawable step := by
  obtain ⟨hfits, most, hmost, hcorners⟩ := (drawable_iff fullTurn_isCut).mp hfull
  cases hcut : a.isCut with
  | false => exact drawable_of_not_isCut hcut
  | true =>
    obtain ⟨n, hn, hlow, hhigh⟩ := h.pieces_le hstep hmost
    exact (drawable_iff hcut).mpr
      ⟨hfits, n, hn, fun i hi => h.corner_isFinite hlow hhigh hi (hcorners most le_rfl)⟩

end WithinTurn
end Arc
end WireCut
