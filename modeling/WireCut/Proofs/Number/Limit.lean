import WireCut.Proofs.Number.Shortest
import WireCut.Proofs.Number.Whole

/-! How far rounding goes: from which size on a number is rounded beyond all finite floats, and how far any other number
is moved by rounding. -/
namespace WireCut

open Float.Model UnpackedFloat Binary64

namespace Binary64

/-- The least size of a number that is rounded beyond all finite floats, halfway from the greatest of them to the next
power of two. -/
def limit : ℚ := 2 ^ (1024 : ℤ) - 2 ^ (970 : ℤ)

private theorem limit_eq : limit = (2 ^ 53 - 1 / 2) * 2 ^ (971 : ℤ) := by
  have hhigh : (2 : ℚ) ^ (1024 : ℤ) = 2 ^ 53 * 2 ^ (971 : ℤ) := by
    rw [← zpow_natCast, ← zpow_add₀ two_ne_zero]
    rfl
  have hlow : (2 : ℚ) ^ (970 : ℤ) = 1 / 2 * 2 ^ (971 : ℤ) := by
    rw [show (971 : ℤ) = 970 + 1 by rfl, zpow_add₀ two_ne_zero, zpow_one]
    ring
  rw [limit, hhigh, hlow, sub_mul]

private theorem beyond_eq : beyond = (2 ^ 53 : ℕ) * 2 ^ (971 : ℤ) := by
  rw [beyond, Nat.cast_pow, Nat.cast_ofNat, ← zpow_natCast, ← zpow_add₀ two_ne_zero]
  rfl

theorem beyond_pos : 0 < beyond :=
  zpow_pos two_pos _

theorem limit_eq_beyond : limit = (1 - 1 / 2 ^ 54) * beyond := by
  rw [limit_eq, beyond_eq]
  generalize (2 : ℚ) ^ (971 : ℤ) = unit
  norm_num
  ring

theorem limit_pos : 0 < limit := by
  rw [limit_eq]
  exact mul_pos (by norm_num) (by positivity)

theorem limit_le : limit ≤ 2 ^ (1024 : ℤ) :=
  sub_le_self _ (by positivity)

theorem pow_lt_limit {k : ℤ} (hk : k ≤ 1023) : (2 : ℚ) ^ k < limit := by
  have hpow : (2 : ℚ) ^ (1023 : ℤ) = 2 ^ 52 * 2 ^ (971 : ℤ) := by
    rw [← zpow_natCast, ← zpow_add₀ two_ne_zero]
    rfl
  refine (zpow_le_zpow_right₀ one_le_two hk).trans_lt ?_
  rw [hpow, limit_eq]
  exact mul_lt_mul_of_pos_right (by norm_num) (by positivity)

private theorem rounded_pow {k : ℤ} (hk : -1074 ≤ k) : rounded (2 ^ k) = 2 ^ k := by
  have hplace := lastPlace_pow k
  refine rounded_of_places (k := 2 ^ (k - lastPlace (2 ^ k)).toNat) ?_
  push_cast
  rw [← zpow_natCast, ← zpow_add₀ two_ne_zero]
  congr 1
  omega

private theorem rounded_limit : rounded limit = beyond := by
  have hplace : lastPlace ((2 ^ 53 - 1 / 2) * 2 ^ (971 : ℤ)) = 971 :=
    lastPlace_mul (by norm_num) (by norm_num) (by norm_num) (.inr (by norm_num))
  rw [limit_eq, beyond_eq]
  exact rounded_of_lastPlace hplace (by norm_num) ⟨by norm_num, by norm_num⟩

/-- What is below the limit is rounded to the greatest float at most. -/
private theorem rounded_le_of_lt_limit {x : ℚ} (hx : 0 ≤ x) (h : x < limit) :
    rounded x ≤ (2 ^ 53 - 1 : ℕ) * 2 ^ (971 : ℤ) := by
  have hpow : (0 : ℚ) < 2 ^ (971 : ℤ) := by positivity
  obtain hle | hlt := le_or_gt x ((2 ^ 53 - 1 : ℕ) * 2 ^ (971 : ℤ))
  · refine (rounded_mono hx hle).trans_eq (rounded_of_places (k := 2 ^ 53 - 1) ?_)
    rw [lastPlace_mul (by norm_num) (by norm_num) (by norm_num) (.inr (by norm_num))]
  · obtain ⟨y, rfl⟩ : ∃ y, x = y * 2 ^ (971 : ℤ) := ⟨x / 2 ^ (971 : ℤ), (div_mul_cancel₀ x hpow.ne').symm⟩
    rw [limit_eq] at h
    have hlow := lt_of_mul_lt_mul_right hlt hpow.le
    have hhigh := lt_of_mul_lt_mul_right h hpow.le
    norm_num at hlow hhigh
    have hplace : lastPlace (y * 2 ^ (971 : ℤ)) = 971 :=
      lastPlace_mul (by linarith) (by norm_num) (by norm_num; linarith) (.inr (by norm_num; linarith))
    refine (rounded_of_lastPlace hplace (by linarith) (mem_interval_of_lt ?_ ?_)).le <;> norm_num <;> linarith

theorem rounded_lt_beyond {x : ℚ} (hx : 0 ≤ x) : rounded x < beyond ↔ x < limit := by
  constructor
  · intro h
    by_contra hle
    exact absurd (rounded_limit ▸ rounded_mono limit_pos.le (not_lt.mp hle)) (not_le.mpr h)
  · intro h
    refine (rounded_le_of_lt_limit hx h).trans_lt ?_
    rw [beyond_eq]
    exact mul_lt_mul_of_pos_right (by norm_num) (by positivity)

/-- Rounding moves a number by half of its last place at most. -/
private theorem rounded_near {x : ℚ} (hx : 0 ≤ x) : |x - rounded x| ≤ 2 ^ lastPlace x / 2 := by
  have hpow : (0 : ℚ) < 2 ^ lastPlace x := by positivity
  have hlow := rounded_closest_places hx ⌊x / 2 ^ lastPlace x⌋₊
  have hhigh := rounded_closest_places hx (⌊x / 2 ^ lastPlace x⌋₊ + 1)
  have hfloor := (le_div_iff₀ hpow).mp (Nat.floor_le (show 0 ≤ x / 2 ^ lastPlace x by positivity))
  have hnext := (div_lt_iff₀ hpow).mp (Nat.lt_floor_add_one (x / 2 ^ lastPlace x))
  push_cast at hhigh
  rw [abs_of_nonneg (sub_nonneg.mpr hfloor)] at hlow
  rw [abs_of_neg (sub_neg.mpr hnext)] at hhigh
  linarith

private theorem lastPlace_le {x : ℚ} (hx : 0 < x) (h : -1074 < lastPlace x) : (2 : ℚ) ^ lastPlace x ≤ x / 2 ^ 52 := by
  have hlog : Int.log 2 x = lastPlace x + 52 := by
    rw [lastPlace] at h ⊢
    omega
  have hlead : (2 : ℚ) ^ (lastPlace x + 52) ≤ x := hlog ▸ Int.zpow_log_le_self one_lt_two hx
  rw [zpow_add₀ two_ne_zero] at hlead
  rw [le_div_iff₀ (by positivity)]
  exact_mod_cast hlead

/-- Above the least place, the error of rounding is relative. -/
private theorem rounded_error_of_lt {x : ℚ} (hx : 0 ≤ x) (h : -1074 < lastPlace x) : |x - rounded x| ≤ x / 2 ^ 53 := by
  obtain rfl | hpos := hx.eq_or_lt
  · simp [rounded_zero]
  · have hplace := lastPlace_le hpos h
    have hhalf : x / 2 ^ 53 = x / 2 ^ 52 / 2 := by ring
    have := rounded_near hx
    linarith

/-- At the least place, half of the least float is added to the error. -/
theorem rounded_error {x : ℚ} (hx : 0 ≤ x) : |x - rounded x| ≤ x / 2 ^ 53 + 2 ^ (-1075 : ℤ) := by
  obtain hleast | hmore := (le_max_right (Int.log 2 x - 52) (-1074)).eq_or_lt
  · have hhalf : (2 : ℚ) ^ lastPlace x / 2 = 2 ^ (-1075 : ℤ) := by
      rw [lastPlace, ← hleast, show (-1074 : ℤ) = -1075 + 1 by rfl, zpow_add₀ two_ne_zero, zpow_one]
      ring
    have hrelative : 0 ≤ x / 2 ^ 53 := by positivity
    have := rounded_near hx
    linarith
  · have htiny : (0 : ℚ) < 2 ^ (-1075 : ℤ) := by positivity
    have := rounded_error_of_lt hx hmore
    linarith

/-- A number without places below those of all floats is rounded with a relative error only. -/
theorem rounded_error_of_places (k : ℕ) :
    |k * 2 ^ (-1074 : ℤ) - rounded (k * 2 ^ (-1074 : ℤ))| ≤ k * 2 ^ (-1074 : ℤ) / 2 ^ 53 := by
  obtain hleast | hmore := (le_max_right (Int.log 2 (k * 2 ^ (-1074 : ℤ) : ℚ) - 52) (-1074)).eq_or_lt
  · rw [rounded_of_places (k := k) (by rw [lastPlace, ← hleast]), sub_self, abs_zero]
    positivity
  · exact rounded_error_of_lt (by positivity) hmore

end Binary64

/-- A float whose significand is a power of two. -/
theorem toRat_power_of_two {v : Float} {k : ℤ} (h : Exact.ofFloat v = .finite false (2 ^ 52) (k - 52)) :
    v.isFinite = true ∧ toRat v = 2 ^ k := by
  constructor
  · rw [Finite.isFinite_eq, Exact.unpack_of_ofFloat h (by decide)]
    rfl
  · rw [← Exact.value_ofFloat, h, Exact.value, if_neg Bool.false_ne_true, one_mul, Nat.cast_pow, Nat.cast_ofNat,
      ← zpow_natCast, ← zpow_add₀ two_ne_zero]
    congr 1
    omega

namespace Nearest
variable {x : ℚ} {v : Float}

/-- A float that is nearest to a number is finite exactly if the number is below the limit. -/
theorem isFinite_iff_lt (h : Nearest x v) : v.isFinite = true ↔ |x| < limit := by
  rw [h.isFinite_iff, abs_nearestRat, rounded_lt_beyond (abs_nonneg x)]

theorem abs_toRat_lt (hv : v.isFinite = true) : |toRat v| < limit :=
  (Nearest.self hv).isFinite_iff_lt.mp hv

/-- What is nearest to a number of at most a power of two is not larger either. -/
theorem abs_le_pow {k : ℤ} (h : Nearest x v) (hx : |x| ≤ 2 ^ k) (hlow : -1074 ≤ k) (hhigh : k ≤ 1023) :
    v.isFinite = true ∧ |toRat v| ≤ 2 ^ k := by
  have hv : v.isFinite = true := h.isFinite_iff_lt.mpr (hx.trans_lt (pow_lt_limit hhigh))
  rw [h.toRat_eq hv, abs_nearestRat, ← rounded_pow hlow]
  exact ⟨hv, rounded_mono (abs_nonneg x) hx⟩

/-- The least size of a float other than zero. -/
theorem least_le_abs (hv : v.isFinite = true) (hne : toRat v ≠ 0) : 2 ^ (-1074 : ℤ) ≤ |toRat v| := by
  have hr := rounded_unpack v.toModel
  rw [Finite.isFinite_eq] at hv
  rw [toRat] at hne ⊢
  generalize v.toModel.unpack = u at hv hne hr ⊢
  obtain ⟨s, rfl⟩ | ⟨s, m, e, hm, rfl⟩ := finite_cases hv
  · exact absurd rfl hne
  · rw [abs_toRat_finite]
    calc (2 : ℚ) ^ (-1074 : ℤ) ≤ 2 ^ e := zpow_le_zpow_right₀ one_le_two hr.bits.2.1
      _ ≤ m * 2 ^ e := le_mul_of_one_le_left (by positivity) (by exact_mod_cast hm)

/-- The size of a finite float that is nearest to a number. -/
theorem abs_error (h : Nearest x v) (hv : v.isFinite = true) :
    (1 - 1 / 2 ^ 53) * |x| - 2 ^ (-1075 : ℤ) ≤ |toRat v| ∧ |toRat v| ≤ (1 + 1 / 2 ^ 53) * |x| + 2 ^ (-1075 : ℤ) := by
  rw [h.toRat_eq hv, abs_nearestRat]
  obtain ⟨hlow, hhigh⟩ := abs_le.mp (rounded_error (abs_nonneg x))
  constructor <;> linarith

end Nearest

end WireCut
