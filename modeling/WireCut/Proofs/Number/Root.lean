import WireCut.Proofs.Number.Limit
import WireCut.Proofs.Number.Sign

/-! Square roots. The exact root of a number is not always rational, so a rounded root is told by its bounds: it is not
above the rounding of any number whose square is not less, and not below that of any number whose square is not more. -/
namespace WireCut

open Float.Model UnpackedFloat Binary64

namespace Binary64

/-- A rational number that is not above the root of `n` can be raised to one that the whole root with the accuracy of its
rest stands for, and one that is not below it can be lowered. -/
private theorem represents_root (n : ℕ) {z : ℚ} (hz : 0 ≤ z) :
    let rest := n - n.sqrt * n.sqrt
    let accuracy : Accuracy := if rest = 0 then .exact else .inexact (if rest ≤ n.sqrt then .lt else .gt)
    let root := ExtendedMantissa.ofMantissaAndAccuracy n.sqrt accuracy
    (z ^ 2 ≤ n → ∃ y, Represents root y ∧ z ≤ y) ∧ (n ≤ z ^ 2 → ∃ y, Represents root y ∧ y ≤ z) := by
  have hrest : n.sqrt * n.sqrt + (n - n.sqrt * n.sqrt) = n := Nat.add_sub_cancel' (Nat.sqrt_le n)
  have hnext : n < (n.sqrt + 1) * (n.sqrt + 1) := Nat.lt_succ_sqrt n
  generalize n.sqrt = r at hrest hnext ⊢
  generalize n - r * r = rest at hrest ⊢
  have hr : (0 : ℚ) ≤ r := Nat.cast_nonneg r
  have hvalue : (n : ℚ) = r ^ 2 + rest := by
    rw [← hrest]
    push_cast
    ring
  dsimp only
  split_ifs with hexact hlow
  · rw [hvalue, hexact, Nat.cast_zero, add_zero]
    exact ⟨fun h => ⟨r, represents_exact r, le_of_sq_le_sq h hr⟩, fun h => ⟨r, represents_exact r, le_of_sq_le_sq h hz⟩⟩
  · -- the root is below the middle of two significands
    have hpos : (1 : ℚ) ≤ rest := by exact_mod_cast Nat.pos_of_ne_zero hexact
    have hle : (rest : ℚ) ≤ r := by exact_mod_cast hlow
    rw [hvalue]
    constructor
    · intro h
      refine ⟨max z (r + 1 / 4), represents_below (lt_max_of_lt_right (by linarith)) (max_lt ?_ (by linarith)), le_max_left _ _⟩
      exact lt_of_pow_lt_pow_left₀ 2 (by positivity) (by nlinarith)
    · intro h
      refine ⟨min z (r + 1 / 4), represents_below (lt_min ?_ (by linarith)) (min_lt_of_right_lt (by linarith)), min_le_left _ _⟩
      exact lt_of_pow_lt_pow_left₀ 2 hz (by linarith)
  · have hlarge : (r + 1 : ℚ) ≤ rest := by exact_mod_cast not_le.mp hlow
    have hless : (rest : ℚ) < 2 * r + 1 := by
      have : rest < 2 * r + 1 := by nlinarith
      exact_mod_cast this
    rw [hvalue]
    constructor
    · intro h
      refine ⟨max z (r + 3 / 4), represents_above (lt_max_of_lt_right (by linarith)) (max_lt ?_ (by linarith)), le_max_left _ _⟩
      exact lt_of_pow_lt_pow_left₀ 2 (by positivity) (by nlinarith)
    · intro h
      refine ⟨min z (r + 3 / 4), represents_above (lt_min ?_ (by linarith)) (min_lt_of_right_lt (by linarith)), min_le_left _ _⟩
      exact lt_of_pow_lt_pow_left₀ 2 hz (by nlinarith)

private theorem sqrt_log2_le {n k : ℕ} (hn : n ≠ 0) (h : 2 * k ≤ n.log2) : k ≤ n.sqrt.log2 := by
  have hsquare : 2 ^ k * 2 ^ k ≤ n := by
    rw [← pow_add, ← two_mul]
    exact (Nat.le_log2 hn).mp h
  have hle : 2 ^ k ≤ n.sqrt := Nat.le_sqrt.mpr hsquare
  have hpos : n.sqrt ≠ 0 := Nat.ne_of_gt (Nat.lt_of_lt_of_le (Nat.two_pow_pos k) hle)
  exact (Nat.le_log2 hpos).mpr hle

/-- A root is taken of a significand that is long enough, with an even exponent. -/
private theorem sqrtCore_eq {m : ℕ} (e : ℤ) (hm : 0 < m) :
    ∃ n T accuracy, sqrtCore Format.binary64 m e = (Nat.sqrt n, T, accuracy) ∧
      accuracy = (if n - n.sqrt * n.sqrt = 0 then .exact
        else .inexact (if n - n.sqrt * n.sqrt ≤ n.sqrt then .lt else .gt)) ∧
      T ≤ target n.sqrt T ∧ (n : ℚ) * (2 ^ T) ^ 2 = m * 2 ^ e := by
  have hmin : Format.binary64.minExponent = -1074 := by decide
  have hbits : Format.binary64.mantissaBits = 53 := by decide
  simp only [sqrtCore, Format.targetExponent, totalExponent, hmin, hbits]
  generalize hT : min (e.ediv 2) (max (((m.log2 + 1 + e + 1 : ℤ)).ediv 2 - (53 : ℕ)) (-1074)) = T
  generalize hk : (e - 2 * T).toNat = k
  -- the significand is only ever lengthened, until its exponent is twice that of the root
  have heven : 2 * T ≤ e := by
    have : e.ediv 2 = e / 2 := rfl
    omega
  have hlog := log2_shiftLeft k (Nat.ne_of_gt hm)
  have hne : m <<< k ≠ 0 := by
    rw [Nat.shiftLeft_eq]
    exact Nat.ne_of_gt (Nat.mul_pos hm (Nat.two_pow_pos k))
  refine ⟨m <<< k, T, _, rfl, rfl, ?_, ?_⟩
  · rw [target]
    by_cases hleast : T ≤ -1074
    · omega
    · have hlong : 52 ≤ (m <<< k).sqrt.log2 := by
        refine sqrt_log2_le hne ?_
        have : ((m.log2 + 1 + e + 1 : ℤ)).ediv 2 = (m.log2 + 1 + e + 1) / 2 := rfl
        omega
      omega
  · rw [Nat.shiftLeft_eq, ← zpow_natCast, ← zpow_mul]
    push_cast
    rw [mul_assoc, ← zpow_natCast, ← zpow_add₀ two_ne_zero]
    congr 2
    omega

structure RootOf (x : ℚ) (u : UnpackedFloat) : Prop where
  rounded : Rounded u
  isFinite : u.isFinite = true
  le : ∀ z, 0 ≤ z → x ≤ z ^ 2 → toRat u ≤ Binary64.rounded z
  ge : ∀ z, 0 ≤ z → z ^ 2 ≤ x → Binary64.rounded z ≤ toRat u

private theorem rootOf_finite {m : ℕ} (e : ℤ) (hm : 0 < m) :
    RootOf (m * 2 ^ e) (UnpackedFloat.sqrt Format.binary64 (.finite .positive m e hm)) := by
  obtain ⟨n, T, accuracy, heq, hacc, htarget, hvalue⟩ := sqrtCore_eq e hm
  have hround := rounding_roundWithAccuracy .positive n.sqrt T accuracy htarget
  have hsqrt : UnpackedFloat.sqrt Format.binary64 (.finite .positive m e hm) =
      roundWithAccuracy Format.binary64 .positive n.sqrt T accuracy := by
    rw [UnpackedFloat.sqrt, heq]
  have hpow : (0 : ℚ) < 2 ^ T := by positivity
  have hrounded {y : ℚ} (hy : Represents (ExtendedMantissa.ofMantissaAndAccuracy n.sqrt accuracy) y) :
      toRat (roundWithAccuracy Format.binary64 .positive n.sqrt T accuracy) = Binary64.rounded (y * 2 ^ T) := by
    rw [toRat_roundWithAccuracy _ htarget hy, sgn, one_mul, nearestRat_of_nonneg (mul_nonneg hy.nonneg hpow.le)]
  have hroot {z : ℚ} (hz : 0 ≤ z) := represents_root n (z := z / 2 ^ T) (by positivity)
  simp only [← hacc, div_pow] at hroot
  rw [hsqrt, ← hvalue]
  refine ⟨hround.rounded, hround.isFinite, fun z hz h => ?_, fun z hz h => ?_⟩
  · obtain ⟨y, hy, hle⟩ := (hroot hz).2 ((le_div_iff₀ (by positivity)).mpr h)
    rw [hrounded hy]
    exact rounded_mono (mul_nonneg hy.nonneg hpow.le) ((le_div_iff₀ hpow).mp hle)
  · obtain ⟨y, hy, hle⟩ := (hroot hz).1 ((div_le_iff₀ (by positivity)).mpr h)
    rw [hrounded hy]
    exact rounded_mono hz ((div_le_iff₀ hpow).mp hle)

private theorem rootOf {u : UnpackedFloat} (hu : u.isFinite = true) (h : 0 ≤ toRat u) :
    RootOf (toRat u) (UnpackedFloat.sqrt Format.binary64 u) := by
  obtain ⟨s, rfl⟩ | ⟨s, m, e, hm, rfl⟩ := finite_cases hu
  · refine ⟨trivial, rfl, fun z _ _ => rounded_nonneg z, fun z _ hle => ?_⟩
    have hzero : z = 0 := pow_eq_zero_iff two_ne_zero |>.mp (le_antisymm hle (sq_nonneg z))
    rw [hzero, rounded_zero]
    exact le_rfl
  · cases s with
    | negative =>
      have hpos : (0 : ℚ) < m * 2 ^ e := by positivity
      rw [toRat, sgn] at h
      linarith
    | positive =>
      rw [toRat, sgn, one_mul]
      exact rootOf_finite e hm

end Binary64

theorem sqrt_unpack (v : Float) :
    v.sqrt.toModel.unpack = (Float.Model.pack (UnpackedFloat.sqrt Format.binary64 v.toModel.unpack)).unpack := rfl

/-- The root of a finite float is finite, and has the bounds of a rounded root. -/
theorem sqrt_bounds {v : Float} (hv : v.isFinite = true) (h : 0 ≤ toRat v) : v.sqrt.isFinite = true ∧
    (∀ z, 0 ≤ z → toRat v ≤ z ^ 2 → toRat v.sqrt ≤ rounded z) ∧
    (∀ z, 0 ≤ z → z ^ 2 ≤ toRat v → rounded z ≤ toRat v.sqrt) := by
  obtain ⟨hrounded, hfinite, hle, hge⟩ := rootOf (u := v.toModel.unpack) hv h
  have hnonneg := hge 0 le_rfl ((zero_pow two_ne_zero).trans_le h)
  rw [rounded_zero] at hnonneg
  have hsquare : toRat v ≤ (2 ^ (512 : ℤ)) ^ 2 := by
    refine ((le_abs_self _).trans_lt (Nearest.abs_toRat_lt hv)).le.trans ?_
    rw [← zpow_natCast, ← zpow_mul]
    exact limit_le
  have hkept : v.sqrt.isFinite = true := by
    rw [Finite.isFinite_eq, sqrt_unpack, unpack_pack _ hrounded, fit_isFinite_iff hrounded hfinite, abs_of_nonneg hnonneg]
    exact (hle _ (by positivity) hsquare).trans_lt ((rounded_lt_beyond (by positivity)).mpr (pow_lt_limit (by decide)))
  have hvalue : toRat v.sqrt = Binary64.toRat (UnpackedFloat.sqrt Format.binary64 v.toModel.unpack) := by
    rw [Finite.isFinite_eq, sqrt_unpack, unpack_pack _ hrounded] at hkept
    rw [toRat, sqrt_unpack, unpack_pack _ hrounded, toRat_fit hkept]
  rw [hvalue]
  exact ⟨hkept, hle, hge⟩

end WireCut
