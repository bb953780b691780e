import WireCut.Proofs.Number.Limit

/-! Sine and cosine of finite angles. They are computed from an angle of at most half a quarter turn, so neither of them is
more than one in size. -/
namespace WireCut

open FixedPoint

namespace FixedPoint

private theorem quarterTurn_bounds : 0 < quarterTurn ∧ quarterTurn ≤ 2 * (1 <<< turnPlaces) := by decide +kernel

private theorem natAbs_shiftRight_le {t : ℤ} {n k : ℕ} (h : t.natAbs ≤ n * 2 ^ k) : (t >>> k).natAbs ≤ n := by
  have hpos : (0 : ℤ) < (2 ^ k : ℕ) := by positivity
  have hcast : ((n * 2 ^ k : ℕ) : ℤ) = n * (2 ^ k : ℕ) := by push_cast; rfl
  rw [Int.shiftRight_eq_div_pow]
  have hlow : -(n : ℤ) ≤ t / (2 ^ k : ℕ) := by
    rw [Int.le_ediv_iff_mul_le hpos, neg_mul]
    omega
  have hhigh : t / (2 ^ k : ℕ) ≤ n := Int.ediv_le_of_le_mul hpos (by omega)
  omega

/-- What is left of an angle beside the multiple of the quarter turn next to it is at most one. -/
private theorem reduce_le (m : ℕ) (e : ℤ) : (reduce m e).2.natAbs ≤ 1 <<< places := by
  have hplaces : 1 <<< turnPlaces = 1 <<< places * 2 ^ (turnPlaces - places) := by
    rw [Nat.one_shiftLeft, Nat.one_shiftLeft, ← pow_add, Nat.add_sub_cancel' (by decide)]
  obtain ⟨hpos, hle⟩ := quarterTurn_bounds
  simp only [reduce]
  refine natAbs_shiftRight_le ?_
  rw [← hplaces, ← Nat.cast_mul]
  generalize m <<< (e + turnPlaces).toNat = x
  generalize quarterTurn = q at hpos hle ⊢
  generalize 1 <<< turnPlaces = one at hle ⊢
  -- the quotient is rounded to the nearest one, so the rest is half a quarter turn at most
  have hlow := Nat.div_mul_le_self (2 * x + q) (2 * q)
  have hhigh := Nat.lt_div_mul_add (a := 2 * x + q) (show 0 < 2 * q by omega)
  rw [Nat.mul_left_comm] at hlow hhigh
  omega

/-- Neither the sine nor the cosine of an angle is more than one. -/
private theorem sineCosineOf_le (m : ℕ) (e : ℤ) :
    (sineCosineOf m e).1.natAbs ≤ 1 <<< places ∧ (sineCosineOf m e).2.natAbs ≤ 1 <<< places := by
  have hbounds := sineCosine_le (reduce_le m e)
  rw [sineCosineOf]
  generalize 1 <<< places = one at hbounds ⊢
  generalize reduce m e = rest at hbounds ⊢
  obtain ⟨k, r⟩ := rest
  dsimp only at hbounds ⊢
  generalize sineCosine r.natAbs = values at hbounds ⊢
  obtain ⟨s, cosine⟩ := values
  obtain ⟨hsine, hcosine⟩ := hbounds
  have hsigned : (if r < 0 then -s else s).natAbs ≤ one := by
    split_ifs
    · rwa [Int.natAbs_neg]
    · exact hsine
  dsimp only
  generalize (if r < 0 then -s else s) = sine at hsigned ⊢
  split <;> simp only [Int.natAbs_neg] <;> constructor <;> assumption

private theorem abs_value_le (negative : Bool) {m k : ℕ} (h : m ≤ 2 ^ k) : |(Exact.finite negative m (-(k : ℤ))).value| ≤ 1 := by
  have hsign : |(if negative then -1 else 1 : ℚ)| = 1 := by cases negative <;> simp
  rw [Exact.value, abs_mul, hsign, one_mul, abs_of_nonneg (by positivity), zpow_neg, ← div_eq_mul_inv,
    div_le_one (by positivity), zpow_natCast]
  exact_mod_cast h

private theorem toFloat_le {n : ℤ} (h : n.natAbs ≤ 1 <<< places) : (toFloat n).isFinite = true ∧ |toRat (toFloat n)| ≤ 1 := by
  have hle := abs_value_le (n < 0) (Nat.one_shiftLeft places ▸ h)
  rw [← zpow_zero (2 : ℚ)] at hle ⊢
  exact (Nearest.exact (n < 0) n.natAbs (-(places : ℤ))).abs_le_pow hle (by decide) (by decide)

end FixedPoint

private theorem toRat_smallAngle : smallAngle.isFinite = true ∧ toRat smallAngle = 2 ^ (-27 : ℤ) :=
  toRat_power_of_two (by decide +kernel)

/-- The cosine of a finite angle is finite, and at most one in size. -/
theorem abs_cos_le {v : Float} (hv : v.isFinite = true) : (cos v).isFinite = true ∧ |toRat (cos v)| ≤ 1 := by
  obtain ⟨negative, m, e, hexact⟩ := Exact.ofFloat_of_isFinite hv
  rw [cos, hexact]
  dsimp only
  split_ifs
  · rw [Nearest.toRat_one, abs_one]
    exact ⟨rfl, le_rfl⟩
  · exact toFloat_le (sineCosineOf_le m e).2

/-- The sine of a finite angle is finite, and at most one in size. -/
theorem abs_sin_le {v : Float} (hv : v.isFinite = true) : (sin v).isFinite = true ∧ |toRat (sin v)| ≤ 1 := by
  obtain ⟨negative, m, e, hexact⟩ := Exact.ofFloat_of_isFinite hv
  rw [sin, hexact]
  dsimp only
  split_ifs with hsmall hnegative
  · obtain ⟨habs, hvalue⟩ := toRat_abs hv
    obtain ⟨hfinite, hpow⟩ := toRat_smallAngle
    have hlt := (lt_iff habs hfinite).mp hsmall
    rw [hvalue, hpow] at hlt
    exact ⟨hv, hlt.le.trans (zpow_le_one_of_nonpos₀ one_le_two (by decide))⟩
  · exact toFloat_le ((Int.natAbs_neg _).trans_le (sineCosineOf_le m e).1)
  · exact toFloat_le (sineCosineOf_le m e).1

end WireCut
