import WireCut.Proofs.Number.Limit
import WireCut.Proofs.Number.Sign

/-! Floats that are not negative. Their products and sums are not negative either, and not without a value, even where they are
infinite. -/
namespace WireCut

open Float.Model UnpackedFloat Binary64

namespace Nearest
variable {x : ℚ} {v : Float}

theorem toRat_nonneg (h : Nearest x v) (hv : v.isFinite = true) (hx : 0 ≤ x) : 0 ≤ toRat v := by
  rw [h.toRat_eq hv, nearestRat_of_nonneg hx]
  exact rounded_nonneg x

theorem toRat_of_zero (h : Nearest 0 v) (hv : v.isFinite = true) : toRat v = 0 :=
  (h.toRat_eq hv).trans nearestRat_zero

end Nearest

private theorem zero_le_unpack (v : Float) : 0 ≤ v ↔ UnpackedFloat.le (.zero .positive) v.toModel.unpack = true :=
  decide_eq_true_iff

private theorem zero_le_of_signed {v : Float} (h : Signed .positive v.toModel.unpack) : 0 ≤ v := by
  rw [zero_le_unpack]
  generalize v.toModel.unpack = u at h
  cases h <;> rfl

/-- A float that is not negative is zero with either sign, or has no sign. -/
private theorem signed_of_zero_le {v : Float} (h : 0 ≤ v) : v.toModel.unpack = .zero .negative ∨ Signed .positive v.toModel.unpack := by
  rw [zero_le_unpack] at h
  generalize v.toModel.unpack = u at h ⊢
  cases u with
  | notANumber => cases h
  | infinity s =>
    cases s
    · cases h
    · exact .inr .infinity
  | zero s =>
    cases s
    · exact .inl rfl
    · exact .inr .zero
  | finite s m e hm =>
    cases s
    · cases h
    · exact .inr (.finite m e hm)

theorem zero_le_iff {v : Float} (hv : v.isFinite = true) : 0 ≤ v ↔ 0 ≤ toRat v :=
  le_iff rfl hv

private theorem signed_of_pos {v : Float} (hv : v.isFinite = true) (h : 0 < toRat v) : Signed .positive v.toModel.unpack := by
  obtain hzero | hsigned := signed_of_zero_le ((zero_le_iff hv).mpr h.le)
  · rw [toRat, hzero] at h
    exact absurd h (lt_irrefl 0)
  · exact hsigned

theorem zero_le_infinity : 0 ≤ infinity := by decide +kernel

/-- A product of numbers that are not negative is not negative, and not without a value, even if it is infinite. -/
theorem zero_le_mul {v w : Float} (hv : v.isFinite = true) (hw : w.isFinite = true) (h : 0 ≤ toRat v) (h' : 0 ≤ toRat w) :
    0 ≤ v * w := by
  have hnear := Nearest.mul hv hw
  obtain hzero | hpos := (mul_nonneg h h').eq_or_lt
  · have hfinite : (v * w).isFinite = true := hnear.isFinite_iff_lt.mpr (by rw [← hzero, abs_zero]; exact limit_pos)
    exact (zero_le_iff hfinite).mpr (hnear.toRat_nonneg hfinite (mul_nonneg h h'))
  · have hne : toRat v ≠ 0 ∧ toRat w ≠ 0 := mul_ne_zero_iff.mp hpos.ne'
    exact zero_le_of_signed ((signed_of_pos hv (lt_of_le_of_ne h hne.1.symm)).mul
      (signed_of_pos hw (lt_of_le_of_ne h' hne.2.symm)) (rounded_unpack _) (rounded_unpack _) hv hw)

namespace Binary64.Signed
variable {a b : UnpackedFloat}

private theorem add (ha : Signed .positive a) (hb : Signed .positive b) :
    Signed .positive (UnpackedFloat.add Format.binary64 a b) := by
  cases ha with
  | infinity => cases hb <;> exact .infinity
  | zero => cases hb <;> constructor
  | finite m e hm =>
    cases hb with
    | infinity => exact .infinity
    | zero => exact .finite m e hm
    | finite n f hn =>
      have hpos : 0 < (decreaseExponent m e (min e f)).1 := by
        change 0 < m <<< _
        rw [Nat.shiftLeft_eq]
        exact Nat.mul_pos hm (Nat.two_pow_pos _)
      simp only [UnpackedFloat.add, UnpackedFloat.normalize, Sign.apply]
      rw [Int.compare_eq_gt.mpr (by omega)]
      exact (rounding_round _ _ _).signed

private theorem zero_add (h : Signed .positive b) : Signed .positive (UnpackedFloat.add Format.binary64 (.zero .negative) b) := by
  cases h <;> constructor

private theorem add_zero (h : Signed .positive a) : Signed .positive (UnpackedFloat.add Format.binary64 a (.zero .negative)) := by
  cases h <;> constructor

end Binary64.Signed

theorem zero_le_add {v w : Float} (hv : 0 ≤ v) (hw : 0 ≤ w) : 0 ≤ v + w := by
  have hsum := Finite.unpack_add v w
  obtain hzero | hsigned := signed_of_zero_le hv <;> obtain hzero' | hsigned' := signed_of_zero_le hw
  · rw [zero_le_unpack, hsum, hzero, hzero']
    rfl
  · exact zero_le_of_signed (hsum ▸ hzero ▸ hsigned'.zero_add.fit)
  · exact zero_le_of_signed (hsum ▸ hzero' ▸ hsigned.add_zero.fit)
  · exact zero_le_of_signed (hsum ▸ (hsigned.add hsigned').fit)

/-- Every finite float that is not negative is a multiple of the least one. -/
private theorem toRat_places {v : Float} (hv : v.isFinite = true) (h : 0 ≤ toRat v) : ∃ k : ℕ, toRat v = k * 2 ^ (-1074 : ℤ) := by
  have hr := rounded_unpack v.toModel
  rw [Finite.isFinite_eq] at hv
  rw [← abs_of_nonneg h, toRat]
  generalize v.toModel.unpack = u at hv hr ⊢
  obtain ⟨s, rfl⟩ | ⟨s, m, e, hm, rfl⟩ := finite_cases hv
  · exact ⟨0, by simp [Binary64.toRat]⟩
  · have hleast := hr.bits.2.1
    refine ⟨m * 2 ^ (e + 1074).toNat, ?_⟩
    rw [abs_toRat_finite, Nat.cast_mul, Nat.cast_pow, Nat.cast_ofNat, mul_assoc, ← zpow_natCast, ← zpow_add₀ two_ne_zero]
    congr 2
    omega

/-- The error of a sum is relative, however small the sum is. -/
theorem add_error {v w : Float} (hv : v.isFinite = true) (hw : w.isFinite = true) (h : 0 ≤ toRat v) (h' : 0 ≤ toRat w)
    (hsum : (v + w).isFinite = true) : (1 - 1 / 2 ^ 53) * (toRat v + toRat w) ≤ toRat (v + w) ∧
      toRat (v + w) ≤ (1 + 1 / 2 ^ 53) * (toRat v + toRat w) := by
  rw [(Nearest.add hv hw).toRat_eq hsum, nearestRat_of_nonneg (add_nonneg h h')]
  obtain ⟨j, hj⟩ := toRat_places hv h
  obtain ⟨k, hk⟩ := toRat_places hw h'
  have herror := abs_le.mp (rounded_error_of_places (j + k))
  rw [Nat.cast_add, add_mul, ← hj, ← hk] at herror
  constructor <;> linarith

end WireCut
