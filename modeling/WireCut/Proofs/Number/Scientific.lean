import WireCut.Number.Literal
import WireCut.Proofs.Number.Order

/-! Floats from decimal literals. A significand with a power of ten is read as the float that is nearest to their
product. -/
namespace WireCut

open Float.Model UnpackedFloat Binary64

namespace Binary64

/-- With a negative exponent the lesser base gives the greater power. -/
theorem zpow_anti {a b : ℚ} {e : ℤ} (he : e ≤ 0) (ha : 0 < a) (h : a ≤ b) : b ^ e ≤ a ^ e := by
  rw [← neg_neg e, zpow_neg b, zpow_neg a]
  exact inv_anti₀ (zpow_pos ha _) (zpow_le_zpow_left₀ (neg_nonneg.mpr he) ha.le h)

@[simp] theorem halfEven_natCast (k : ℕ) : halfEven k = k := by
  simp [halfEven]

/-- A whole number of last places is not rounded. -/
theorem rounded_of_places {x : ℚ} {k : ℕ} (h : x = k * 2 ^ lastPlace x) : rounded x = x := by
  have hplaces : x / 2 ^ lastPlace x = k := (div_eq_iff (by positivity)).mpr h
  rw [rounded, hplaces, halfEven_natCast, ← h]

theorem nearestRat_of_nonneg {x : ℚ} (hx : 0 ≤ x) : nearestRat x = rounded x :=
  if_neg (not_lt.mpr hx)

private theorem rounded_natCast {n : ℕ} (h : n < 2 ^ 53) : rounded n = n := by
  obtain rfl | hpos := Nat.eq_zero_or_pos n
  · exact_mod_cast rounded_zero
  have hlog : Int.log 2 (n : ℚ) < 53 := by
    rw [← Int.lt_zpow_iff_log_lt one_lt_two (by exact_mod_cast hpos)]
    exact_mod_cast h
  have hplace : lastPlace n ≤ 0 := by
    rw [lastPlace]
    omega
  refine rounded_of_places (k := n * 2 ^ (-lastPlace (n : ℚ)).toNat) ?_
  push_cast
  rw [mul_assoc, ← zpow_natCast, ← zpow_add₀ two_ne_zero]
  have hcancel : ((-lastPlace n).toNat : ℤ) + lastPlace n = 0 := by omega
  rw [hcancel, zpow_zero, mul_one]

theorem lastPlace_pow (k : ℤ) : lastPlace (2 ^ k) = max (k - 52) (-1074) := by
  have hlog : Int.log 2 ((2 : ℚ) ^ k) = k := by exact_mod_cast Int.log_zpow (R := ℚ) one_lt_two k
  rw [lastPlace, hlog]

private theorem rounded_beyond : rounded beyond = beyond := by
  have hplace : lastPlace beyond = 1024 - 52 := lastPlace_pow 1024
  refine rounded_of_places (k := 2 ^ 52) ?_
  rw [hplace, beyond, zpow_sub₀ two_ne_zero, Nat.cast_pow, Nat.cast_ofNat]
  exact (mul_div_cancel₀ _ (by positivity)).symm

/-- What is not above half of the least float is rounded to zero. -/
private theorem rounded_tiny {x : ℚ} (hx : 0 ≤ x) (h : x ≤ 2 ^ (-1075 : ℤ)) : rounded x = 0 := by
  have hhalf : rounded (2 ^ (-1075 : ℤ)) = 0 := by
    have hplace : lastPlace (2 ^ (-1075 : ℤ)) = -1074 := lastPlace_pow (-1075)
    have hquot : (2 : ℚ) ^ (-1075 : ℤ) / 2 ^ (-1074 : ℤ) = 1 / 2 := by
      rw [← zpow_sub₀ two_ne_zero]
      norm_num
    rw [rounded, hplace, hquot]
    norm_num [halfEven]
  exact le_antisymm (hhalf ▸ rounded_mono hx h) (rounded_nonneg x)

end Binary64

/-- The powers of ten that a short literal is read with are exact. -/
theorem toRat_power (i : Fin Float.exactlyRepresentablePowersOfTen.size) :
    Float.exactlyRepresentablePowersOfTen[i].isFinite = true ∧
      toRat Float.exactlyRepresentablePowersOfTen[i] = 10 ^ i.val := by
  have hall : ∀ i : Fin Float.exactlyRepresentablePowersOfTen.size,
      Float.exactlyRepresentablePowersOfTen[i].isFinite = true ∧
        (Exact.ofFloat Float.exactlyRepresentablePowersOfTen[i]).same (Exact.ofInt (10 ^ i.val)) = true := by
    decide +kernel
  obtain ⟨hfinite, hsame⟩ := hall i
  refine ⟨hfinite, ?_⟩
  have hten : (Exact.ofInt (10 ^ i.val)).value = 10 ^ i.val := by exact_mod_cast Exact.value_ofInt (10 ^ i.val)
  obtain ⟨s, m, e, hexact⟩ := Exact.ofFloat_of_isFinite hfinite
  rw [Exact.same, hexact, Exact.ofInt, Exact.compare?_finite, ← hexact, ← Exact.ofInt, Exact.value_ofFloat, hten,
    decide_eq_true_iff, Option.some_inj, compare_eq_iff_eq] at hsame
  exact hsame

namespace Nearest
variable {x : ℚ} {v : Float}

private theorem of_infinity (hx : beyond ≤ x) (hv : v.isFinite = false) : Nearest x v := by
  have hpos : (0 : ℚ) ≤ beyond := by rw [beyond]; positivity
  refine ⟨iff_of_false (by simp [hv]) (not_lt.mpr ?_), fun h => ?_⟩
  · rw [abs_nearestRat, abs_of_nonneg (hpos.trans hx), ← rounded_beyond]
    exact rounded_mono hpos hx
  · rw [hv] at h
    cases h

private theorem of_tiny (hx : 0 ≤ x) (h : x ≤ 2 ^ (-1075 : ℤ)) {s : Sign}
    (hv : v.toModel.unpack = (Float.Model.pack (.zero s)).unpack) : Nearest x v :=
  of_unpack (u := .zero s) trivial rfl ((nearestRat_of_nonneg hx).trans (rounded_tiny hx h)).symm hv

/-- A machine word of at most fifty-three bits is read without rounding. -/
private theorem toRat_word {n : ℕ} (h : n < 2 ^ 53) : toRat n.toUInt64.toFloat = n := by
  obtain ⟨hnear, hfinite⟩ := ofWord h
  rw [hnear.toRat_eq hfinite, nearestRat_of_nonneg (Nat.cast_nonneg n), rounded_natCast h]

/-- A short significand with a small power of ten is multiplied or divided once. -/
private theorem of_short {m : ℕ} {e : ℤ} (h : m < 2 ^ 53 ∧ e.natAbs ≤ 22) :
    Nearest (m * 10 ^ e) (Float.ofScientific m (e < 0) e.natAbs) := by
  have hsize : e.natAbs < Float.exactlyRepresentablePowersOfTen.size := Nat.lt_succ_of_le h.2
  obtain ⟨hfinite, hpower⟩ := toRat_power ⟨e.natAbs, hsize⟩
  obtain ⟨-, hword⟩ := ofWord h.1
  have hne : (10 : ℚ) ^ e.natAbs ≠ 0 := by positivity
  rw [Float.ofScientific, dif_pos h]
  by_cases hneg : e < 0
  · have hquot := div hword hfinite (hpower ▸ hne)
    rw [toRat_word h.1, hpower] at hquot
    have hexp : (m * 10 ^ e : ℚ) = m / 10 ^ e.natAbs := by
      rw [div_eq_mul_inv, ← zpow_natCast, ← zpow_neg, Int.ofNat_natAbs_of_nonpos hneg.le, neg_neg]
    rw [if_pos (decide_eq_true hneg), hexp]
    exact hquot
  · have hprod := mul hword hfinite
    rw [toRat_word h.1, hpower] at hprod
    have hexp : (m * 10 ^ e : ℚ) = m * 10 ^ e.natAbs := by
      rw [← zpow_natCast, Int.natAbs_of_nonneg (not_lt.mp hneg)]
    rw [if_neg (by simpa using hneg), hexp]
    exact hprod

/-- A long significand or a large power of ten is read without intermediate floats. -/
private theorem of_long {m : ℕ} {e : ℤ}
    (hv : v.toModel.unpack = (Float.Model.pack (UnpackedFloat.ofScientific Format.binary64 m e)).unpack) :
    Nearest (m * 10 ^ e) v := by
  have hrange : (2 : ℤ) ^ Format.binary64.exponentBits = 2048 := rfl
  obtain rfl | hm := Nat.eq_zero_or_pos m
  · rw [Nat.cast_zero, zero_mul]
    exact of_zero _ hv
  have hone : (1 : ℚ) ≤ m := by exact_mod_cast hm
  by_cases hlarge : 2048 < e
  · rw [UnpackedFloat.ofScientific, dif_neg hm.ne', hrange, if_pos hlarge] at hv
    refine of_infinity ?_ ?_
    · calc beyond ≤ 2 ^ e := zpow_le_zpow_right₀ one_le_two (by omega)
        _ ≤ 10 ^ e := zpow_le_zpow_left₀ (by omega) (by norm_num) (by norm_num)
        _ ≤ m * 10 ^ e := le_mul_of_one_le_left (by positivity) hone
    · rw [Finite.isFinite_eq, hv, Binary64.unpack_pack (.infinity .positive) trivial]
      rfl
  by_cases hsmall : e < -(2048 + m.log2)
  · rw [UnpackedFloat.ofScientific, dif_neg hm.ne', hrange, if_neg hlarge, if_pos hsmall] at hv
    refine of_tiny (by positivity) ?_ hv
    have hbits : (m : ℚ) ≤ 2 ^ (m.log2 + 1 : ℤ) := by exact_mod_cast Nat.lt_log2_self.le
    have hpower : (10 : ℚ) ^ e ≤ 2 ^ e := zpow_anti (by omega) two_pos (by norm_num)
    calc (m * 10 ^ e : ℚ) ≤ 2 ^ (m.log2 + 1 : ℤ) * 2 ^ e := mul_le_mul hbits hpower (by positivity) (by positivity)
      _ = 2 ^ (m.log2 + 1 + e) := (zpow_add₀ two_ne_zero _ _).symm
      _ ≤ 2 ^ (-1075 : ℤ) := zpow_le_zpow_right₀ one_le_two (by omega)
  obtain hneg | hnonneg := lt_or_ge e 0
  · rw [UnpackedFloat.ofScientific, dif_neg hm.ne', hrange, if_neg hlarge, if_neg hsmall, if_neg (by omega)] at hv
    have hquot := of_quotient hv
    rw [Binary64.toRat, Binary64.toRat, sgn, zpow_zero, one_mul, one_mul, mul_one, mul_one] at hquot
    have hexp : (m * 10 ^ e : ℚ) = m / (10 ^ (-e).toNat : ℕ) := by
      rw [Nat.cast_pow, Nat.cast_ofNat, div_eq_mul_inv, ← zpow_natCast, ← zpow_neg, Int.toNat_of_nonneg (by omega), neg_neg]
    rwa [hexp]
  · obtain ⟨k, rfl⟩ := Int.eq_ofNat_of_zero_le hnonneg
    exact_mod_cast of_scaling hm.ne' (by omega) hv

/-- What is read for a significand and a power of ten is nearest to their product. -/
theorem ofScientific (m : ℕ) (e : ℤ) : Nearest (m * 10 ^ e) (Float.ofScientific m (e < 0) e.natAbs) := by
  by_cases h : m < 2 ^ 53 ∧ e.natAbs ≤ 22
  · exact of_short h
  · refine of_long ?_
    have hexp : (if e < 0 then Int.negOfNat e.natAbs else Int.ofNat e.natAbs) = e := by
      split
      · rw [Int.negOfNat_eq, Int.ofNat_eq_natCast]
        omega
      · rw [Int.ofNat_eq_natCast]
        omega
    rw [Float.ofScientific, dif_neg h]
    simp only [decide_eq_true_eq, hexp]
    rfl

end Nearest

namespace Binary64

/-- Rounded numbers of one value other than zero are the same. -/
private theorem eq_of_toRat {a b : UnpackedFloat} (ha : Rounded a) (hb : Rounded b) (hfa : a.isFinite = true)
    (hfb : b.isFinite = true) (h : toRat a = toRat b) (hne : toRat a ≠ 0) : a = b := by
  obtain ⟨s, rfl⟩ | ⟨s, m, e, hm, rfl⟩ := finite_cases hfa
  · exact absurd rfl hne
  obtain ⟨t, rfl⟩ | ⟨t, n, f, hn, rfl⟩ := finite_cases hfb
  · exact absurd h hne
  have hsize : (m * 2 ^ e : ℚ) = n * 2 ^ f := by rw [← abs_toRat_finite s m e hm, h, abs_toRat_finite]
  have hsizes := compare_sizes ha hb
  rw [compare_eq_iff_eq.mpr hsize, Ordering.then_eq_eq, compare_eq_iff_eq, compare_eq_iff_eq] at hsizes
  obtain ⟨rfl, rfl⟩ := hsizes
  have hsign : sgn s = sgn t := mul_right_cancel₀ (by positivity) h
  cases s <;> cases t <;> first | rfl | norm_num [sgn] at hsign

end Binary64

theorem eq_of_unpack {v w : Float} (h : v.toModel.unpack = w.toModel.unpack) : v = w := by
  have hmodel : v.toModel = w.toModel := by rw [← pack_unpack v.toModel, h, pack_unpack]
  exact congrArg Float.ofModel hmodel

/-- Finite floats of one value other than zero are the same. -/
private theorem eq_of_toRat {v w : Float} (hv : v.isFinite = true) (hw : w.isFinite = true) (h : toRat v = toRat w)
    (hne : toRat v ≠ 0) : v = w :=
  eq_of_unpack (Binary64.eq_of_toRat (rounded_unpack _) (rounded_unpack _) hv hw h hne)

/-- The parts of a float other than zero. -/
theorem Exact.unpack_of_ofFloat {v : Float} {negative : Bool} {m : ℕ} {e : ℤ} (h : ofFloat v = .finite negative m e)
    (hm : 0 < m) : v.toModel.unpack = .finite (if negative then .negative else .positive) m e hm := by
  rw [ofFloat] at h
  cases hu : v.toModel.unpack with
  | finite s n f hn =>
    rw [hu] at h
    cases h
    cases s <;> rfl
  | zero s =>
    rw [hu] at h
    cases h
    cases hm
  | _ =>
    rw [hu] at h
    cases h

/-- A literal whose value is rounded to the size of a float is read as that float. -/
theorem Literal.scaled_eq {v : Float} {negative : Bool} {m n : ℕ} {e k : ℤ} (hv : Exact.ofFloat v = .finite negative m e)
    (hm : 0 < m) (h : rounded (n * 10 ^ k) = m * 2 ^ e) : scaled negative n k = v := by
  have hunpack := Exact.unpack_of_ofFloat hv hm
  have hsize : (0 : ℚ) < m * 2 ^ e := by positivity
  have hfinite : v.isFinite = true := by rw [Finite.isFinite_eq, hunpack]; rfl
  have hvalue : toRat v = sgn (if negative then .negative else .positive) * (m * 2 ^ e) := by rw [toRat, hunpack]; rfl
  have hself := Nearest.self hfinite
  have hnear := Nearest.ofScientific n k
  have hrat : nearestRat (n * 10 ^ k) = |nearestRat (toRat v)| := by
    rw [nearestRat_of_nonneg (by positivity), h, ← hself.toRat_eq hfinite, hvalue, abs_mul, abs_sgn, one_mul,
      abs_of_pos hsize]
  have hread : (Float.ofScientific n (k < 0) k.natAbs).isFinite = true := by
    rw [hnear.isFinite_iff, hrat, abs_abs]
    exact hself.isFinite_iff.mp hfinite
  have hread' : toRat (Float.ofScientific n (k < 0) k.natAbs) = m * 2 ^ e := by
    rw [hnear.toRat_eq hread, nearestRat_of_nonneg (by positivity), h]
  rw [scaled]
  generalize Float.ofScientific n (k < 0) k.natAbs = w at hread hread' ⊢
  cases negative with
  | false =>
    change w = v
    refine eq_of_toRat hread hfinite ?_ (hread' ▸ hsize.ne')
    rw [hread', hvalue]
    exact (one_mul _).symm
  | true =>
    change -w = v
    obtain ⟨hneg, hneg'⟩ := toRat_neg hread
    refine eq_of_toRat hneg hfinite ?_ ?_
    · rw [hneg', hread', hvalue]
      exact (neg_one_mul _).symm
    · rw [hneg', hread']
      exact neg_ne_zero.mpr hsize.ne'

end WireCut
