import WireCut.Proofs.Number.Magnitude
import WireCut.Proofs.Number.Rounding

/-! Floats as rational numbers. Each operation on finite floats gives a float that is nearest to the exact result, and
floats are in the order of the numbers that they stand for. -/
namespace WireCut

open Float.Model UnpackedFloat Binary64

namespace Binary64

/-- The least power of two that is beyond all finite floats. -/
def beyond : ℚ := 2 ^ (1024 : ℤ)

private theorem sgn_mul (s t : Sign) : sgn (s * t) = sgn s * sgn t := by
  cases s <;> cases t
  · exact show (1 : ℚ) = -1 * -1 by norm_num
  · exact show (-1 : ℚ) = -1 * 1 by norm_num
  · exact show (-1 : ℚ) = 1 * -1 by norm_num
  · exact show (1 : ℚ) = 1 * 1 by norm_num

private theorem sgn_div (s t : Sign) : sgn (s / t) = sgn s / sgn t := by
  cases s <;> cases t
  · exact show (1 : ℚ) = -1 / -1 by norm_num
  · exact show (-1 : ℚ) = -1 / 1 by norm_num
  · exact show (-1 : ℚ) = 1 / -1 by norm_num
  · exact show (1 : ℚ) = 1 / 1 by norm_num

theorem finite_cases {u : UnpackedFloat} (h : u.isFinite = true) :
    (∃ s, u = .zero s) ∨ ∃ s m e hm, u = .finite s m e hm := by
  cases u with
  | zero s => exact .inl ⟨s, rfl⟩
  | finite s m e hm => exact .inr ⟨s, m, e, hm, rfl⟩
  | _ => cases h

theorem Rounding.isFinite {s : Sign} {m : ℕ} {e : ℤ} {u : UnpackedFloat} (h : Rounding s m e u) :
    u.isFinite = true := by
  cases h <;> rfl

theorem abs_toRat_finite (s : Sign) (m : ℕ) (e : ℤ) (h : 0 < m) : |toRat (.finite s m e h)| = m * 2 ^ e := by
  rw [toRat, abs_mul, abs_sgn, one_mul, abs_of_nonneg (by positivity)]

theorem abs_nearestRat (x : ℚ) : |nearestRat x| = rounded |x| := by
  rw [nearestRat]
  split_ifs with hx
  · rw [abs_neg, abs_of_nonneg (rounded_nonneg _), abs_of_neg hx]
  · rw [abs_of_nonneg (rounded_nonneg _), abs_of_nonneg (not_lt.mp hx)]

private theorem normalize_isFinite (m e : ℤ) (s : Sign) : (UnpackedFloat.normalize Format.binary64 m e s).isFinite = true := by
  rw [UnpackedFloat.normalize]
  split
  · exact (rounding_round _ _ _).isFinite
  · rfl
  · exact (rounding_round _ _ _).isFinite

/-- A rounded number is nearest to itself. -/
private theorem nearestRat_toRat {u : UnpackedFloat} (hu : Rounded u) : nearestRat (toRat u) = toRat u := by
  cases u with
  | finite s m e hm =>
    rw [toRat, nearestRat_sgn s (by positivity), rounded,
      lastPlace_eq (Int.le_of_eq hu) le_rfl (lt_add_one _) (by exact_mod_cast hm), ← hu,
      mul_div_cancel_right₀ _ (by positivity)]
    simp [halfEven]
  | _ => exact nearestRat_zero

/-- The value of a signed significand that is counted in units of a lower exponent. -/
theorem apply_shifted (s : Sign) (m : ℕ) {e k : ℤ} (h : k ≤ e) :
    (s.apply ((m <<< (e - k).toNat : ℕ) : ℤ) : ℚ) * 2 ^ k = sgn s * (m * 2 ^ e) := by
  have hcast : (s.apply ((m <<< (e - k).toNat : ℕ) : ℤ) : ℚ) = sgn s * (m <<< (e - k).toNat : ℕ) := by
    cases s
    · rw [Sign.apply, Int.cast_neg, Int.cast_natCast, sgn, neg_one_mul]
    · rw [Sign.apply, Int.cast_natCast, sgn, one_mul]
  rw [hcast, Nat.shiftLeft_eq, mul_assoc]
  push_cast
  rw [mul_assoc, ← zpow_natCast, ← zpow_add₀ two_ne_zero]
  congr 3
  omega

private theorem sgn_neg (s : Sign) : sgn (-s) = -sgn s := by
  cases s
  · exact (neg_neg (1 : ℚ)).symm
  · rfl

private theorem toRat_neg (u : UnpackedFloat) : toRat u.neg = -toRat u := by
  cases u with
  | finite s m e hm => rw [UnpackedFloat.neg, toRat, toRat, sgn_neg, neg_mul]
  | _ => exact neg_zero.symm

private theorem neg_isFinite {u : UnpackedFloat} (h : u.isFinite = true) : u.neg.isFinite = true := by
  cases u <;> exact h

private theorem toRat_abs (u : UnpackedFloat) : toRat u.abs = |toRat u| := by
  cases u with
  | finite s m e hm =>
    rw [abs_toRat_finite, UnpackedFloat.abs, toRat, sgn, one_mul]
  | _ => exact abs_zero.symm

private theorem abs_isFinite {u : UnpackedFloat} (h : u.isFinite = true) : u.abs.isFinite = true := by
  cases u <;> first | rfl | cases h

/-- A rounded number is kept if it is not beyond all finite floats. -/
theorem fit_isFinite_iff {u : UnpackedFloat} (hu : Rounded u) (hfinite : u.isFinite = true) :
    (fit u).isFinite = true ↔ |toRat u| < beyond := by
  obtain ⟨s, rfl⟩ | ⟨s, m, e, hm, rfl⟩ := finite_cases hfinite
  · simp [fit, UnpackedFloat.isFinite, toRat, beyond]
  · obtain ⟨hbits, hleast, hnormal⟩ := hu.bits
    rw [abs_toRat_finite, fit]
    split_ifs with hbig
    · refine iff_of_false (by simp [UnpackedFloat.isFinite]) (not_lt.mpr ?_)
      have hlog : m.log2 = 52 := hnormal.resolve_right (by omega)
      have hfull : (2 : ℚ) ^ (52 : ℤ) ≤ m := by exact_mod_cast hlog ▸ Nat.log2_self_le (Nat.ne_of_gt hm)
      calc beyond = 2 ^ (52 : ℤ) * 2 ^ (972 : ℤ) := by rw [← zpow_add₀ two_ne_zero]; rfl
        _ ≤ m * 2 ^ e := mul_le_mul hfull (zpow_le_zpow_right₀ one_le_two hbig) (by positivity) (by positivity)
    · refine iff_of_true rfl ?_
      have hshort : (m : ℚ) < 2 ^ (53 : ℤ) := by exact_mod_cast hbits
      calc (m * 2 ^ e : ℚ) < 2 ^ (53 : ℤ) * 2 ^ e := mul_lt_mul_of_pos_right hshort (by positivity)
        _ ≤ 2 ^ (53 : ℤ) * 2 ^ (971 : ℤ) :=
          mul_le_mul_of_nonneg_left (zpow_le_zpow_right₀ one_le_two (by omega)) (by positivity)
        _ = beyond := by rw [← zpow_add₀ two_ne_zero]; rfl

theorem toRat_fit {u : UnpackedFloat} (h : (fit u).isFinite = true) : toRat (fit u) = toRat u := by
  cases u with
  | finite s m e hm =>
    rw [fit] at h ⊢
    split_ifs at h ⊢
    · cases h
    · rfl
  | _ => rfl

end Binary64

def toRat (v : Float) : ℚ :=
  Binary64.toRat v.toModel.unpack

theorem toRat_zero : toRat 0 = 0 := rfl

theorem toRat_of_not_isFinite {v : Float} (h : v.isFinite = false) : toRat v = 0 := by
  rw [Finite.isFinite_eq] at h
  rw [toRat]
  cases hu : v.toModel.unpack with
  | finite s m e hm =>
    rw [hu] at h
    cases h
  | _ => rfl

/-- A float that is nearest to a rational number, or infinite if the number is rounded beyond all finite floats. -/
structure Nearest (x : ℚ) (v : Float) : Prop where
  isFinite_iff : v.isFinite = true ↔ |nearestRat x| < beyond
  toRat_eq : v.isFinite = true → toRat v = nearestRat x

namespace Nearest
variable {x y : ℚ} {v w : Float}

/-- What is packed after rounding is nearest to what was rounded. -/
theorem of_unpack {u : UnpackedFloat} (hu : Rounded u) (hfinite : u.isFinite = true) (h : Binary64.toRat u = nearestRat x)
    (hv : v.toModel.unpack = (Float.Model.pack u).unpack) : Nearest x v := by
  rw [Binary64.unpack_pack u hu] at hv
  refine ⟨?_, fun hv' => ?_⟩
  · rw [Finite.isFinite_eq, hv, fit_isFinite_iff hu hfinite, h]
  · rw [Finite.isFinite_eq, hv] at hv'
    rw [toRat, hv, toRat_fit hv', h]

theorem of_zero (s : Sign) (hv : v.toModel.unpack = (Float.Model.pack (.zero s)).unpack) : Nearest 0 v :=
  of_unpack (u := .zero s) trivial rfl nearestRat_zero.symm hv

/-- What is nearest to a number of lesser size is finite if what is nearest to the other one is, and not larger. -/
theorem mono (hv : Nearest x v) (hw : Nearest y w) (h : |x| ≤ |y|) (hfinite : w.isFinite = true) :
    v.isFinite = true ∧ |toRat v| ≤ |toRat w| := by
  have hle : |nearestRat x| ≤ |nearestRat y| := by
    rw [abs_nearestRat, abs_nearestRat]
    exact rounded_mono (abs_nonneg x) h
  have hv' : v.isFinite = true := hv.isFinite_iff.mpr (hle.trans_lt (hw.isFinite_iff.mp hfinite))
  refine ⟨hv', ?_⟩
  rw [hv.toRat_eq hv', hw.toRat_eq hfinite]
  exact hle

/-- Every finite float is nearest to its own value. -/
theorem self (hv : v.isFinite = true) : Nearest (toRat v) v := by
  have hr := rounded_unpack v.toModel
  refine of_unpack hr hv (nearestRat_toRat hr).symm ?_
  rw [Binary64.unpack_pack _ hr]
  cases hu : v.toModel.unpack with
  | finite s m e hm =>
    have := of_unpack_eq hu
    rw [fit, if_neg (by omega)]
  | _ => rfl

/-- A number that is itself the value of a float has no other float nearest to it. -/
theorem toRat_congr (hv : Nearest (toRat v) w) (hfinite : v.isFinite = true) : w.isFinite = true ∧ toRat w = toRat v := by
  have hself := self hfinite
  have hw : w.isFinite = true := hv.isFinite_iff.mpr (hself.isFinite_iff.mp hfinite)
  exact ⟨hw, (hv.toRat_eq hw).trans (hself.toRat_eq hfinite).symm⟩

private theorem of_sum {a b : UnpackedFloat} (ha : Rounded a) (hb : Rounded b) (hfa : a.isFinite = true)
    (hfb : b.isFinite = true)
    (hv : v.toModel.unpack = (Float.Model.pack (UnpackedFloat.add Format.binary64 a b)).unpack) :
    Nearest (Binary64.toRat a + Binary64.toRat b) v := by
  obtain ⟨s, rfl⟩ | ⟨s, m, e, hm, rfl⟩ := finite_cases hfa <;> obtain ⟨t, rfl⟩ | ⟨t, n, f, hn, rfl⟩ := finite_cases hfb
  · rw [show Binary64.toRat (.zero s) + Binary64.toRat (.zero t) = 0 from add_zero (0 : ℚ)]
    rw [UnpackedFloat.add] at hv
    split at hv <;> exact of_zero _ hv
  · rw [show Binary64.toRat (.zero s) + _ = _ from zero_add (Binary64.toRat (.finite t n f hn))]
    exact of_unpack hb rfl (nearestRat_toRat hb).symm hv
  · rw [show _ + Binary64.toRat (.zero t) = _ from add_zero (Binary64.toRat (.finite s m e hm))]
    exact of_unpack ha rfl (nearestRat_toRat ha).symm hv
  · refine of_unpack (rounded_normalize _ _ _) (normalize_isFinite _ _ _) ?_ hv
    rw [toRat_normalize, Int.cast_add, add_mul, apply_shifted s m (min_le_left e f), apply_shifted t n (min_le_right e f),
      Binary64.toRat, Binary64.toRat]

theorem add (hv : v.isFinite = true) (hw : w.isFinite = true) : Nearest (toRat v + toRat w) (v + w) :=
  of_sum (rounded_unpack _) (rounded_unpack _) hv hw rfl

theorem sub (hv : v.isFinite = true) (hw : w.isFinite = true) : Nearest (toRat v - toRat w) (v - w) := by
  have hneg : toRat v - toRat w = Binary64.toRat v.toModel.unpack + Binary64.toRat w.toModel.unpack.neg := by
    rw [toRat_neg]
    exact sub_eq_add_neg _ _
  have hsub : (v - w).toModel.unpack =
      (Float.Model.pack (UnpackedFloat.sub Format.binary64 v.toModel.unpack w.toModel.unpack)).unpack := rfl
  rw [hneg]
  exact of_sum (rounded_unpack _) (rounded_unpack _).neg hv (neg_isFinite hw) (sub_eq_add _ _ ▸ hsub)

private theorem of_product {s t : Sign} {m n : ℕ} {e f : ℤ} {hm : 0 < m} {hn : 0 < n}
    (htarget : e + f ≤ target (m * n) (e + f))
    (hv : v.toModel.unpack =
      (Float.Model.pack (UnpackedFloat.mul Format.binary64 (.finite s m e hm) (.finite t n f hn))).unpack) :
    Nearest (Binary64.toRat (.finite s m e hm) * Binary64.toRat (.finite t n f hn)) v := by
  have hround := rounding_roundWithAccuracy (s * t) (m * n) (e + f) .exact htarget
  refine of_unpack hround.rounded hround.isFinite ?_ hv
  rw [toRat_roundWithAccuracy _ htarget (represents_exact _)]
  congr 1
  rw [sgn_mul, Binary64.toRat, Binary64.toRat, zpow_add₀ two_ne_zero]
  push_cast
  ring

theorem mul (hv : v.isFinite = true) (hw : w.isFinite = true) : Nearest (toRat v * toRat w) (v * w) := by
  have hmul : (v * w).toModel.unpack =
      (Float.Model.pack (UnpackedFloat.mul Format.binary64 v.toModel.unpack w.toModel.unpack)).unpack := rfl
  have hrv := rounded_unpack v.toModel
  have hrw := rounded_unpack w.toModel
  rw [Finite.isFinite_eq] at hv hw
  simp only [toRat]
  generalize v.toModel.unpack = a at hv hrv hmul
  generalize w.toModel.unpack = b at hw hrw hmul
  obtain ⟨s, rfl⟩ | ⟨s, m, e, hm, rfl⟩ := finite_cases hv <;> obtain ⟨t, rfl⟩ | ⟨t, n, f, hn, rfl⟩ := finite_cases hw
  · exact (zero_mul (_ : ℚ)).symm ▸ of_zero _ hmul
  · exact (zero_mul (_ : ℚ)).symm ▸ of_zero _ hmul
  · exact (mul_zero (_ : ℚ)).symm ▸ of_zero _ hmul
  · exact of_product (target_mul hrv hrw) hmul

theorem of_quotient {s t : Sign} {m n : ℕ} {e f : ℤ} {hm : 0 < m} {hn : 0 < n}
    (hv : v.toModel.unpack =
      (Float.Model.pack (UnpackedFloat.div Format.binary64 (.finite s m e hm) (.finite t n f hn))).unpack) :
    Nearest (Binary64.toRat (.finite s m e hm) / Binary64.toRat (.finite t n f hn)) v := by
  obtain ⟨k, heq, htarget, -⟩ := Finite.div_eq s e hm t f hn
  have hround := rounding_roundWithAccuracy (s / t) (m <<< k / n) (e - f - k) (accuracyOfFraction (m <<< k % n) n)
    htarget
  rw [heq] at hv
  refine of_unpack hround.rounded hround.isFinite ?_ hv
  rw [toRat_roundWithAccuracy _ htarget (represents_div _ hn)]
  congr 1
  have hshift : ((m <<< k : ℕ) : ℚ) = m * 2 ^ (k : ℤ) := by rw [Nat.shiftLeft_eq]; push_cast; rfl
  have hpow : (2 : ℚ) ^ (e - f - k) = 2 ^ e / 2 ^ f / 2 ^ (k : ℤ) := by
    rw [zpow_sub₀ two_ne_zero, zpow_sub₀ two_ne_zero]
  have hsign : sgn t ≠ 0 := by cases t <;> simp [sgn]
  have hn' : (n : ℚ) ≠ 0 := by exact_mod_cast Nat.ne_of_gt hn
  rw [sgn_div, hshift, hpow, Binary64.toRat, Binary64.toRat]
  field_simp

theorem div (hv : v.isFinite = true) (hw : w.isFinite = true) (hne : toRat w ≠ 0) :
    Nearest (toRat v / toRat w) (v / w) := by
  have hdiv : (v / w).toModel.unpack =
      (Float.Model.pack (UnpackedFloat.div Format.binary64 v.toModel.unpack w.toModel.unpack)).unpack := rfl
  rw [Finite.isFinite_eq] at hv hw
  simp only [toRat] at hne ⊢
  generalize v.toModel.unpack = a at hv hdiv
  generalize w.toModel.unpack = b at hw hdiv hne
  obtain ⟨t, rfl⟩ | ⟨t, n, f, hn, rfl⟩ := finite_cases hw
  · exact absurd rfl hne
  obtain ⟨s, rfl⟩ | ⟨s, m, e, hm, rfl⟩ := finite_cases hv
  · exact (zero_div (_ : ℚ)).symm ▸ of_zero _ hdiv
  · exact of_quotient hdiv

theorem one_isFinite : (1 : Float).isFinite = true := rfl

theorem toRat_one : toRat 1 = 1 := by
  rw [toRat, one_unpack, Binary64.toRat, sgn]
  norm_num

/-- Rounding once more changes nothing. -/
private theorem again (hv : Nearest x v) (hfinite : v.isFinite = true) (hw : Nearest (toRat v) w) : Nearest x w := by
  have hsame : nearestRat (toRat v) = nearestRat x := by
    rw [toRat, nearestRat_toRat (rounded_unpack _)]
    exact hv.toRat_eq hfinite
  exact ⟨hsame ▸ hw.isFinite_iff, hsame ▸ hw.toRat_eq⟩

/-- A machine word of at most fifty-three bits. -/
theorem ofWord {n : ℕ} (hsmall : n < 2 ^ 53) : Nearest n n.toUInt64.toFloat ∧ n.toUInt64.toFloat.isFinite = true := by
  have hnat : n.toUInt64.toNat = n := by
    rw [Nat.toUInt64_eq, UInt64.toNat_ofNat', Nat.mod_eq_of_lt (by omega)]
  have hunpack : n.toUInt64.toFloat.toModel.unpack =
      (Float.Model.pack (UnpackedFloat.normalize Format.binary64 n.toUInt64.toNat 0 .positive)).unpack := rfl
  constructor
  · refine of_unpack (rounded_normalize _ _ _) (normalize_isFinite _ _ _) ?_ hunpack
    rw [toRat_normalize, hnat, Int.cast_natCast, zpow_zero, mul_one]
  · obtain rfl | hne := Nat.eq_zero_or_pos n
    · rfl
    · have hlog := (Nat.log2_lt hne.ne').mpr hsmall
      exact (stored_toFloat hne.ne' hsmall).isFinite (by omega)

/-- A whole number that is scaled by a power of ten is rounded once. -/
theorem of_scaling {n k : ℕ} (hn : n ≠ 0) (hk : k ≤ 2048)
    (hv : v.toModel.unpack = (Float.Model.pack (UnpackedFloat.ofScientific Format.binary64 n k)).unpack) :
    Nearest (n * 10 ^ k) v := by
  have hpos : 0 < n <<< 53 := by
    rw [Nat.shiftLeft_eq]
    omega
  have hten : 0 < 10 ^ k := Nat.pow_pos (by decide)
  have hlog := log2_shiftLeft 53 hn
  have hplace := place_mul hpos hten
  have hvalue : (n * 10 ^ k : ℚ) = Binary64.toRat (.finite .positive (n <<< 53) (-53) hpos) *
      Binary64.toRat (.finite .positive (10 ^ k) 0 hten) := by
    rw [Binary64.toRat, Binary64.toRat, sgn, Nat.shiftLeft_eq]
    push_cast
    norm_num
    ring
  have hrange : (2 : ℤ) ^ Format.binary64.exponentBits = 2048 := rfl
  rw [UnpackedFloat.ofScientific, dif_neg hn, hrange, if_neg (by omega), if_neg (by omega),
    if_pos (Int.natCast_nonneg k)] at hv
  rw [hvalue]
  refine of_product ?_ hv
  rw [target]
  omega

/-- A whole number is read as the float that is nearest to it. -/
theorem natCast (n : ℕ) : Nearest n (Float.ofNat n) := by
  by_cases hsmall : n < 2 ^ 53
  · -- it is read as a machine word, and multiplied by one
    obtain ⟨hread, hfinite⟩ := ofWord hsmall
    have hone := mul hfinite one_isFinite
    rw [toRat_one, mul_one, ← ofNat_eq hsmall] at hone
    exact hread.again hfinite hone
  · have hscaled : Nearest (n * 10 ^ 0) (Float.ofNat n) := by
      refine of_scaling (by omega) (by omega) ?_
      change (Float.ofScientific n false 0).toModel.unpack = _
      rw [Float.ofScientific, dif_neg fun h => hsmall h.1]
      rfl
    rwa [pow_zero, mul_one] at hscaled

end Nearest

theorem toRat_abs {v : Float} (hv : v.isFinite = true) : v.abs.isFinite = true ∧ toRat v.abs = |toRat v| := by
  have hr := rounded_unpack v.toModel
  have habs : v.abs.toModel.unpack = fit v.toModel.unpack.abs := unpack_pack _ hr.abs
  have hfit : fit v.toModel.unpack.abs = v.toModel.unpack.abs := by
    cases hu : v.toModel.unpack with
    | finite s m e hm =>
      have := of_unpack_eq hu
      rw [UnpackedFloat.abs, fit, if_neg (by omega)]
    | _ => rfl
  rw [Finite.isFinite_eq, toRat, habs, hfit, Binary64.toRat_abs]
  exact ⟨abs_isFinite hv, rfl⟩

theorem toRat_neg {v : Float} (hv : v.isFinite = true) : (-v).isFinite = true ∧ toRat (-v) = -toRat v := by
  have hr := rounded_unpack v.toModel
  have hneg : (-v).toModel.unpack = fit v.toModel.unpack.neg := unpack_pack _ hr.neg
  have hfit : fit v.toModel.unpack.neg = v.toModel.unpack.neg := by
    cases hu : v.toModel.unpack with
    | finite s m e hm =>
      have := of_unpack_eq hu
      rw [UnpackedFloat.neg, fit, if_neg (by omega)]
    | _ => rfl
  rw [Finite.isFinite_eq, toRat, hneg, hfit, Binary64.toRat_neg]
  exact ⟨neg_isFinite hv, rfl⟩

namespace Binary64

/-- A rounded number with a larger exponent is larger. -/
theorem size_lt {s t : Sign} {m n : ℕ} {e f : ℤ} {hm : 0 < m} {hn : 0 < n} (hx : Rounded (.finite s m e hm))
    (hy : Rounded (.finite t n f hn)) (h : e < f) : (m * 2 ^ e : ℚ) < n * 2 ^ f := by
  obtain ⟨hshort, hleast, -⟩ := hx.bits
  obtain ⟨-, -, hnormal⟩ := hy.bits
  have hlog : n.log2 = 52 := hnormal.resolve_right (by omega)
  have hfull : (2 : ℚ) ^ (52 : ℤ) ≤ n := by exact_mod_cast hlog ▸ Nat.log2_self_le (Nat.ne_of_gt hn)
  calc (m * 2 ^ e : ℚ) < 2 ^ (53 : ℤ) * 2 ^ e := mul_lt_mul_of_pos_right (by exact_mod_cast hshort) (by positivity)
    _ = 2 ^ (53 + e) := (zpow_add₀ two_ne_zero _ _).symm
    _ ≤ 2 ^ (52 + f) := zpow_le_zpow_right₀ one_le_two (by omega)
    _ = 2 ^ (52 : ℤ) * 2 ^ f := zpow_add₀ two_ne_zero _ _
    _ ≤ n * 2 ^ f := mul_le_mul_of_nonneg_right hfull (by positivity)

/-- Rounded numbers of one sign are in the order of their exponents first, and then of their significands. -/
theorem compare_sizes {s t : Sign} {m n : ℕ} {e f : ℤ} {hm : 0 < m} {hn : 0 < n} (hx : Rounded (.finite s m e hm))
    (hy : Rounded (.finite t n f hn)) :
    (compare e f).then (compare m n) = compare (m * 2 ^ e : ℚ) (n * 2 ^ f) := by
  obtain hlt | rfl | hgt := lt_trichotomy e f
  · rw [compare_lt_iff_lt.mpr hlt, compare_lt_iff_lt.mpr (size_lt hx hy hlt)]
    rfl
  · have hmono : StrictMono fun k : ℕ => (k * 2 ^ e : ℚ) := fun a b hab =>
      mul_lt_mul_of_pos_right (by exact_mod_cast hab) (by positivity)
    have hcancel := hmono.cmp_map_eq m n
    rw [cmp_eq_compare, cmp_eq_compare] at hcancel
    rw [hcancel, compare_eq_iff_eq.mpr rfl, Ordering.eq_then]
  · rw [compare_gt_iff_gt.mpr hgt, compare_gt_iff_gt.mpr (size_lt hy hx hgt)]
    rfl

/-- Finite floats are compared as the numbers that they stand for. -/
private theorem compare_eq {a b : UnpackedFloat} (ha : Rounded a) (hb : Rounded b) (hfa : a.isFinite = true)
    (hfb : b.isFinite = true) : UnpackedFloat.compare a b = some (compare (toRat a) (toRat b)) := by
  have hzero (s : Sign) : toRat (.zero s) = 0 := rfl
  obtain ⟨s, rfl⟩ | ⟨s, m, e, hm, rfl⟩ := finite_cases hfa <;> obtain ⟨t, rfl⟩ | ⟨t, n, f, hn, rfl⟩ := finite_cases hfb
  · rfl
  · have hpos : (0 : ℚ) < n * 2 ^ f := by positivity
    rw [hzero, toRat]
    cases t
    · rw [sgn, compare_gt_iff_gt.mpr (by linarith)]
      rfl
    · rw [sgn, compare_lt_iff_lt.mpr (by linarith)]
      rfl
  · have hpos : (0 : ℚ) < m * 2 ^ e := by positivity
    rw [hzero, toRat]
    cases s
    · rw [sgn, compare_lt_iff_lt.mpr (by linarith)]
      rfl
    · rw [sgn, compare_gt_iff_gt.mpr (by linarith)]
      rfl
  · have hpos : (0 : ℚ) < m * 2 ^ e := by positivity
    have hpos' : (0 : ℚ) < n * 2 ^ f := by positivity
    have hsizes := compare_sizes ha hb
    rw [toRat, toRat]
    cases s <;> cases t
    · have hanti : StrictAnti fun x : ℚ => -1 * x := fun x y hxy => by linarith
      have hflip := hanti.cmp_map_eq (m * 2 ^ e) (n * 2 ^ f)
      rw [← cmp_swap (m * 2 ^ e : ℚ), cmp_eq_compare, cmp_eq_compare, ← hsizes] at hflip
      rw [sgn, hflip]
      rfl
    · rw [sgn, sgn, compare_lt_iff_lt.mpr (by linarith)]
      rfl
    · rw [sgn, sgn, compare_gt_iff_gt.mpr (by linarith)]
      rfl
    · rw [sgn, one_mul, one_mul, ← hsizes]
      rfl

end Binary64

private theorem compare_toRat {v w : Float} (hv : v.isFinite = true) (hw : w.isFinite = true) :
    UnpackedFloat.compare v.toModel.unpack w.toModel.unpack = some (compare (toRat v) (toRat w)) :=
  compare_eq (rounded_unpack _) (rounded_unpack _) hv hw

theorem lt_iff {v w : Float} (hv : v.isFinite = true) (hw : w.isFinite = true) : v < w ↔ toRat v < toRat w := by
  change decide (UnpackedFloat.lt v.toModel.unpack w.toModel.unpack = true) = true ↔ _
  rw [decide_eq_true_iff, UnpackedFloat.lt, compare_toRat hv hw, beq_iff_eq, Option.some_inj, compare_lt_iff_lt]

theorem le_iff {v w : Float} (hv : v.isFinite = true) (hw : w.isFinite = true) : v ≤ w ↔ toRat v ≤ toRat w := by
  change decide (UnpackedFloat.le v.toModel.unpack w.toModel.unpack = true) = true ↔ _
  rw [decide_eq_true_iff, UnpackedFloat.le, compare_toRat hv hw, Option.any_some, Ordering.isLE_iff_ne_gt]
  exact compare_le_iff_le

theorem beq_zero_iff {v : Float} (hv : v.isFinite = true) : (v == 0) = true ↔ toRat v = 0 := by
  change UnpackedFloat.beq v.toModel.unpack (0 : Float).toModel.unpack = true ↔ _
  rw [UnpackedFloat.beq, compare_toRat hv rfl, beq_iff_eq, Option.some_inj, compare_eq_iff_eq]
  rfl

end WireCut
