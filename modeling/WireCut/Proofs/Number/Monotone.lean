import WireCut.Proofs.Number.Magnitude
import WireCut.Proofs.Number.Order

/-! Bounds by values. What is smaller has a smaller quotient and, if it does not exceed the divisor, a remainder that
does not exceed it either. -/
namespace WireCut

open Float.Model UnpackedFloat Binary64

/-- A value says where the leading bit is. -/
theorem within_of_lt {v : Float} {k : ℤ} (hv : v.isFinite = true) (h : |toRat v| < 2 ^ k) : Within k v := by
  rw [Finite.isFinite_eq] at hv
  rw [Within]
  rw [toRat] at h
  generalize v.toModel.unpack = u at hv h
  obtain ⟨s, rfl⟩ | ⟨s, m, e, hm, rfl⟩ := finite_cases hv
  · exact .zero s
  · refine .finite s m e hm ?_
    rw [abs_toRat_finite] at h
    have hlow : (2 : ℚ) ^ (m.log2 : ℤ) ≤ m := by exact_mod_cast Nat.log2_self_le (Nat.ne_of_gt hm)
    have hpow : (2 : ℚ) ^ (m.log2 + e) < 2 ^ k := by
      rw [zpow_add₀ two_ne_zero]
      exact (mul_le_mul_of_nonneg_right hlow (by positivity)).trans_lt h
    exact (zpow_lt_zpow_iff_right₀ one_lt_two).mp hpow

theorem abs_toRat_lt_of_within {v : Float} {k : ℤ} (h : Within k v) : |toRat v| < 2 ^ k := by
  rw [Within] at h
  rw [toRat]
  generalize v.toModel.unpack = u at h ⊢
  cases h with
  | zero s => simpa [Binary64.toRat] using zpow_pos two_pos k
  | finite s m e hm place =>
    have hhigh : (m : ℚ) < 2 ^ ((m.log2 + 1 : ℕ) : ℤ) := by exact_mod_cast Nat.lt_log2_self
    rw [abs_toRat_finite]
    calc (m * 2 ^ e : ℚ) < 2 ^ ((m.log2 + 1 : ℕ) : ℤ) * 2 ^ e := mul_lt_mul_of_pos_right hhigh (by positivity)
      _ = 2 ^ (((m.log2 + 1 : ℕ) : ℤ) + e) := (zpow_add₀ two_ne_zero _ _).symm
      _ ≤ 2 ^ k := zpow_le_zpow_right₀ one_le_two (by omega)

theorem reaches_of_le {v : Float} {k : ℤ} (hv : v.isFinite = true) (h : 2 ^ k ≤ |toRat v|) : Reaches k v := by
  rw [Finite.isFinite_eq] at hv
  rw [Reaches]
  rw [toRat] at h
  generalize v.toModel.unpack = u at hv h
  obtain ⟨s, rfl⟩ | ⟨s, m, e, hm, rfl⟩ := finite_cases hv
  · exact absurd h (not_le.mpr (by simpa [Binary64.toRat] using zpow_pos two_pos k))
  · refine .finite s m e hm ?_
    rw [abs_toRat_finite] at h
    have hhigh : (m : ℚ) < 2 ^ ((m.log2 + 1 : ℕ) : ℤ) := by exact_mod_cast Nat.lt_log2_self
    have hpow : (2 : ℚ) ^ k < 2 ^ ((m.log2 + 1 : ℕ) + e) := by
      rw [zpow_add₀ two_ne_zero]
      exact h.trans_lt (mul_lt_mul_of_pos_right hhigh (by positivity))
    have := (zpow_lt_zpow_iff_right₀ one_lt_two).mp hpow
    omega

theorem within_of_isFinite {v : Float} (hv : v.isFinite = true) : Within 1024 v := by
  have hself := Nearest.self hv
  refine within_of_lt hv ?_
  rw [hself.toRat_eq hv]
  exact hself.isFinite_iff.mp hv

namespace Finite

private theorem mul_not_finite {x y : UnpackedFloat} (h : (x.isFinite && y.isFinite) = false) :
    Rounded (UnpackedFloat.mul Format.binary64 x y) ∧ (UnpackedFloat.mul Format.binary64 x y).isFinite = false := by
  cases x <;> cases y <;> simp only [UnpackedFloat.isFinite, Bool.and_true, Bool.and_false] at h <;>
    first | exact ⟨trivial, rfl⟩ | cases h

/-- A product is finite only if its factors are. -/
theorem of_mul {v w : Float} (h : (v * w).isFinite = true) : v.isFinite = true ∧ w.isFinite = true := by
  have hmul : (v * w).toModel.unpack =
      (Float.Model.pack (UnpackedFloat.mul Format.binary64 v.toModel.unpack w.toModel.unpack)).unpack := rfl
  rw [isFinite_eq, hmul] at h
  cases hparts : v.isFinite && w.isFinite with
  | true => simpa using hparts
  | false =>
    obtain ⟨hrounded, hinfinite⟩ := mul_not_finite hparts
    rw [unpack_pack _ hrounded, fit_of_not_finite hinfinite] at h
    cases h

private theorem div_not_finite {x : UnpackedFloat} (y : UnpackedFloat) (h : x.isFinite = false) :
    Rounded (UnpackedFloat.div Format.binary64 x y) ∧ (UnpackedFloat.div Format.binary64 x y).isFinite = false := by
  cases x <;> cases y <;> simp only [UnpackedFloat.isFinite, Bool.true_eq_false] at h <;> exact ⟨trivial, rfl⟩

/-- A quotient is finite only if the dividend is. -/
theorem of_div {v w : Float} (h : (v / w).isFinite = true) : v.isFinite = true := by
  have hdiv : (v / w).toModel.unpack =
      (Float.Model.pack (UnpackedFloat.div Format.binary64 v.toModel.unpack w.toModel.unpack)).unpack := rfl
  rw [isFinite_eq, hdiv] at h
  cases hv : v.isFinite with
  | true => rfl
  | false =>
    obtain ⟨hrounded, hinfinite⟩ := div_not_finite w.toModel.unpack hv
    rw [unpack_pack _ hrounded, fit_of_not_finite hinfinite] at h
    cases h

end Finite

/-- A quotient by a divisor that stands for no number other than zero is finite only if the divisor is infinite. -/
private theorem div_degenerate {v d : Float} (hv : v.isFinite = true) (hd : ¬ (d.isFinite = true ∧ toRat d ≠ 0)) :
    toRat (v / d) = 0 ∧ ((v / d).isFinite = true ↔ ∃ s, d.toModel.unpack = .infinity s) := by
  have hdiv : (v / d).toModel.unpack =
      (Float.Model.pack (UnpackedFloat.div Format.binary64 v.toModel.unpack d.toModel.unpack)).unpack := rfl
  have h {u : UnpackedFloat} (hu : UnpackedFloat.div Format.binary64 v.toModel.unpack d.toModel.unpack = u)
      (hrounded : Rounded u) (hzero : Binary64.toRat (fit u) = 0)
      (hfinite : (fit u).isFinite = true ↔ ∃ s, d.toModel.unpack = .infinity s) :
      toRat (v / d) = 0 ∧ ((v / d).isFinite = true ↔ ∃ s, d.toModel.unpack = .infinity s) := by
    rw [toRat, Finite.isFinite_eq, hdiv, hu, unpack_pack u hrounded]
    exact ⟨hzero, hfinite⟩
  rw [Finite.isFinite_eq] at hv hd
  rw [toRat] at hd
  generalize hdu : d.toModel.unpack = c at hd h
  cases c with
  | finite s m e hm =>
    refine absurd ⟨rfl, ?_⟩ hd
    rw [← abs_pos, abs_toRat_finite]
    positivity
  | infinity s =>
    obtain ⟨t, hv⟩ | ⟨t, m, e, hm, hv⟩ := finite_cases hv
    · exact h (u := .zero (t / s)) (by rw [hv]; rfl) trivial rfl ⟨fun _ => ⟨s, rfl⟩, fun _ => rfl⟩
    · exact h (u := .zero (t / s)) (by rw [hv]; rfl) trivial rfl ⟨fun _ => ⟨s, rfl⟩, fun _ => rfl⟩
  | zero s =>
    have hnever : ¬ ∃ t, UnpackedFloat.zero s = .infinity t := by simp
    obtain ⟨t, hv⟩ | ⟨t, m, e, hm, hv⟩ := finite_cases hv
    · exact h (u := .notANumber) (by rw [hv]; rfl) trivial rfl (iff_of_false Bool.false_ne_true hnever)
    · exact h (u := .infinity (t / s)) (by rw [hv]; rfl) trivial rfl (iff_of_false Bool.false_ne_true hnever)
  | notANumber =>
    have hnever : ¬ ∃ t, UnpackedFloat.notANumber = .infinity t := by simp
    refine h (u := .notANumber) ?_ trivial rfl (iff_of_false Bool.false_ne_true hnever)
    cases v.toModel.unpack <;> rfl

/-- A dividend of lesser size has a quotient of lesser size, whatever the divisor is. -/
theorem div_le_div {v w d : Float} (hv : v.isFinite = true) (hw : w.isFinite = true) (hle : |toRat v| ≤ |toRat w|)
    (h : (w / d).isFinite = true) : (v / d).isFinite = true ∧ |toRat (v / d)| ≤ |toRat (w / d)| := by
  by_cases hd : d.isFinite = true ∧ toRat d ≠ 0
  · refine (Nearest.div hv hd.1 hd.2).mono (Nearest.div hw hd.1 hd.2) ?_ h
    rw [abs_div, abs_div]
    exact div_le_div_of_nonneg_right hle (abs_nonneg _)
  · obtain ⟨hzero, hfinite⟩ := div_degenerate hv hd
    rw [hzero]
    exact ⟨hfinite.mpr ((div_degenerate hw hd).2.mp h), abs_zero.trans_le (abs_nonneg _)⟩

theorem toRat_div_nonneg {v d : Float} (hv : v.isFinite = true) (hle : 0 ≤ toRat v) (hd : 0 ≤ toRat d) :
    0 ≤ toRat (v / d) := by
  by_cases hfinite : (v / d).isFinite = true
  · by_cases hne : d.isFinite = true ∧ toRat d ≠ 0
    · rw [(Nearest.div hv hne.1 hne.2).toRat_eq hfinite, ← nearestRat_zero]
      exact nearestRat_mono (div_nonneg hle hd)
    · exact (div_degenerate hv hne).1.ge
  · rw [toRat_of_not_isFinite (by simpa using hfinite)]

/-- A significand of at most sixty-four bits is rounded as a whole. -/
private theorem Nearest.significand (negative : Bool) {m : ℕ} (hm : m.log2 ≤ 63) (e : ℤ) :
    Nearest (Exact.finite negative m e).value (Exact.nearest negative m e) := by
  have hunpack : (Exact.nearest negative m e).toModel.unpack = (Float.Model.pack (UnpackedFloat.round Format.binary64
      (if negative then .negative else .positive) m (e + (0 : ℕ)))).unpack := by
    rw [Exact.nearest, Exact.shorten_small hm]
  have hround := rounding_round (if negative then .negative else .positive) m (e + (0 : ℕ))
  refine Nearest.of_unpack hround.rounded hround.isFinite ?_ hunpack
  rw [toRat_round, Nat.cast_zero, add_zero, Exact.value]
  cases negative <;> rfl

/-- A significand that is not moved, and does not exceed the divisor, is its own remainder or leaves none. -/
private theorem mod_scaled {m n : ℕ} {e f : ℤ} (hexponent : m = 0 ∨ e ≤ f) (h : (m * 2 ^ e : ℚ) ≤ n * 2 ^ f) :
    (m <<< (e - min e f).toNat) % (n <<< (f - min e f).toNat) = 0 ∨
      min e f = e ∧ (m <<< (e - min e f).toNat) % (n <<< (f - min e f).toNat) = m := by
  obtain rfl | hle := hexponent
  · exact .inl (by rw [Nat.zero_shiftLeft, Nat.zero_mod])
  · rw [min_eq_left hle, Int.sub_self, Int.toNat_zero, Nat.shiftLeft_zero, Nat.shiftLeft_eq]
    have hscaled : m ≤ n * 2 ^ (f - e).toNat := by
      have hpow : (2 : ℚ) ^ f = 2 ^ (f - e).toNat * 2 ^ e := by
        rw [← zpow_natCast, ← zpow_add₀ two_ne_zero]
        congr 1
        omega
      rw [hpow, ← mul_assoc] at h
      exact_mod_cast le_of_mul_le_mul_right h (by positivity)
    obtain hlt | rfl := hscaled.lt_or_eq
    · exact .inr ⟨rfl, Nat.mod_eq_of_lt hlt⟩
    · exact .inl (Nat.mod_self _)

/-- What is not larger than the divisor is its own remainder, or leaves none. -/
private theorem truncatedRemainder_small {x y : Float} (hx : x.isFinite = true) (hy : y.isFinite = true) (hne : toRat y ≠ 0)
    (h : |toRat x| ≤ |toRat y|) : (truncatedRemainder x y).isFinite = true ∧
      (toRat (truncatedRemainder x y) = toRat x ∨ toRat (truncatedRemainder x y) = 0) := by
  have core (negative : Bool) {m : ℕ} {e : ℤ} (t : Sign) {n : ℕ} {f : ℤ} (hn : 0 < n)
      (hxe : Exact.ofFloat x = .finite negative m e) (hye : y.toModel.unpack = .finite t n f hn) (hlog : m.log2 ≤ 63)
      (hexponent : m = 0 ∨ e ≤ f) (hle : (m * 2 ^ e : ℚ) ≤ n * 2 ^ f) : (truncatedRemainder x y).isFinite = true ∧
        (toRat (truncatedRemainder x y) = toRat x ∨ toRat (truncatedRemainder x y) = 0) := by
    have hyexact : Exact.ofFloat y = .finite (t == .negative) n f := by rw [Exact.ofFloat, hye]
    simp only [truncatedRemainder, hxe, hyexact, if_neg (Nat.ne_of_gt hn)]
    obtain hzero | ⟨hmin, hsame⟩ := mod_scaled hexponent hle
    · have hnone := Nearest.significand negative (m := 0) (by decide) (min e f)
      rw [show (Exact.finite negative 0 (min e f)).value = toRat 0 by simp [Exact.value, toRat_zero]] at hnone
      rw [hzero]
      obtain ⟨hfinite, hvalue⟩ := hnone.toRat_congr rfl
      exact ⟨hfinite, .inr hvalue⟩
    · have hwhole := Nearest.significand negative hlog e
      rw [← hxe, Exact.value_ofFloat] at hwhole
      rw [hsame, hmin]
      obtain ⟨hfinite, hvalue⟩ := hwhole.toRat_congr hx
      exact ⟨hfinite, .inl hvalue⟩
  have hxr := rounded_unpack x.toModel
  have hyr := rounded_unpack y.toModel
  rw [toRat, toRat] at h
  rw [toRat] at hne
  obtain ⟨t, hyu⟩ | ⟨t, n, f, hn, hyu⟩ := finite_cases hy
  · exact absurd (by rw [hyu]; rfl) hne
  · rw [hyu, abs_toRat_finite] at h
    rw [hyu] at hyr
    obtain ⟨s, hxu⟩ | ⟨s, m, e, hm, hxu⟩ := finite_cases hx
    · exact core (s == .negative) t hn (by rw [Exact.ofFloat, hxu]) hyu (m := 0) (e := 0) (by decide) (.inl rfl) (by
        rw [Nat.cast_zero, zero_mul]
        positivity)
    · rw [hxu, abs_toRat_finite] at h
      rw [hxu] at hxr
      have hlog := (Nat.log2_lt (Nat.ne_of_gt hm)).mpr hxr.bits.1
      refine core (s == .negative) t hn (by rw [Exact.ofFloat, hxu]) hyu (by omega) (.inr ?_) h
      by_contra hlt
      exact absurd (size_lt hyr hxr (not_le.mp hlt)) (not_lt.mpr h)

/-- The remainder of what is not larger than the divisor is not larger than the divisor. -/
theorem modulo_le {x y : Float} (hx : x.isFinite = true) (hy : y.isFinite = true) (hpos : 0 < toRat y)
    (h : |toRat x| ≤ toRat y) : (modulo x y).isFinite = true ∧ |toRat (modulo x y)| ≤ |toRat y| := by
  obtain ⟨hr, hvalue⟩ := truncatedRemainder_small hx hy hpos.ne' (h.trans (le_abs_self _))
  have hsigned (negative : Bool) : (signedZero negative).isFinite = true ∧ |toRat (signedZero negative)| ≤ |toRat y| := by
    cases negative <;> exact ⟨rfl, abs_zero.trans_le (abs_nonneg _)⟩
  have hnegative : decide (y < 0) = false := by
    rw [decide_eq_false_iff_not, lt_iff hy rfl]
    exact not_lt.mpr hpos.le
  simp only [modulo, hnegative, Bool.false_bne]
  generalize truncatedRemainder x y = r at hr hvalue
  split_ifs with hzero hlow
  · exact hsigned _
  · have hrx : toRat r = toRat x := hvalue.resolve_right fun h => hzero ((beq_zero_iff hr).mpr h)
    have hlow' : toRat r < 0 := (lt_iff hr rfl).mp (of_decide_eq_true hlow)
    refine (Nearest.add hr hy).mono (Nearest.self hy) ?_ hy
    rw [abs_of_pos hpos, abs_le]
    have := (abs_le.mp h).1
    constructor <;> linarith
  · have hrx : toRat r = toRat x := hvalue.resolve_right fun h => hzero ((beq_zero_iff hr).mpr h)
    exact ⟨hr, by rw [hrx, abs_of_pos hpos]; exact h⟩

end WireCut
