import WireCut.Proofs.Number.Sign

/-! What rounding comes to among all floats: no finite float is closer to a number than the one it is rounded to. -/
namespace WireCut

open Float.Model UnpackedFloat Binary64

namespace Binary64

private theorem halfEven_closest {y : ℚ} (hy : 0 ≤ y) (k : ℕ) : |y - halfEven y| ≤ |y - k| := by
  have hlow : (⌊y⌋₊ : ℚ) ≤ y := Nat.floor_le hy
  have hhigh : y < ⌊y⌋₊ + 1 := Nat.lt_floor_add_one y
  have hnear : |y - halfEven y| ≤ y - ⌊y⌋₊ ∧ |y - halfEven y| ≤ ⌊y⌋₊ + 1 - y := by
    rw [halfEven]
    split_ifs with hbelow habove
    · rw [abs_of_nonneg (sub_nonneg.mpr hlow)]
      exact ⟨le_rfl, by linarith⟩
    · rw [Nat.cast_succ, abs_of_neg (sub_neg.mpr hhigh)]
      exact ⟨by linarith, by linarith⟩
    · -- both neighbours are as near
      obtain hbit | hbit := Nat.mod_two_eq_zero_or_one ⌊y⌋₊
      · rw [hbit, add_zero, abs_of_nonneg (sub_nonneg.mpr hlow)]
        exact ⟨le_rfl, by linarith⟩
      · rw [hbit, Nat.cast_succ, abs_of_neg (sub_neg.mpr hhigh)]
        exact ⟨by linarith, by linarith⟩
  obtain hle | hlt := le_or_gt k ⌊y⌋₊
  · have hk : (k : ℚ) ≤ ⌊y⌋₊ := by exact_mod_cast hle
    calc |y - halfEven y| ≤ y - ⌊y⌋₊ := hnear.1
      _ ≤ y - k := by linarith
      _ ≤ |y - k| := le_abs_self _
  · have hk : (⌊y⌋₊ + 1 : ℚ) ≤ k := by exact_mod_cast hlt
    calc |y - halfEven y| ≤ ⌊y⌋₊ + 1 - y := hnear.2
      _ ≤ -(y - k) := by linarith
      _ ≤ |y - k| := neg_le_abs _

/-- No whole number of last places is closer to a value than what it is rounded to. -/
theorem rounded_closest_places {x : ℚ} (hx : 0 ≤ x) (k : ℕ) : |x - rounded x| ≤ |x - k * 2 ^ lastPlace x| := by
  have hpow : (0 : ℚ) < 2 ^ lastPlace x := by positivity
  have hscale (z : ℚ) : |x - z * 2 ^ lastPlace x| = |x / 2 ^ lastPlace x - z| * 2 ^ lastPlace x := by
    rw [← abs_of_pos hpow, ← abs_mul, abs_of_pos hpow, sub_mul, div_mul_cancel₀ _ hpow.ne']
  rw [rounded, hscale, hscale]
  exact mul_le_mul_of_nonneg_right (halfEven_closest (by positivity) k) hpow.le

/-- No size of a float is closer to a value than what it is rounded to. -/
private theorem rounded_closest {x : ℚ} (hx : 0 ≤ x) {s : Sign} {m : ℕ} {e : ℤ} {hm : 0 < m} (hr : Rounded (.finite s m e hm)) :
    |x - rounded x| ≤ |x - m * 2 ^ e| := by
  obtain ⟨hshort, hleast, -⟩ := hr.bits
  obtain hle | hlt := le_or_gt (lastPlace x) e
  · have hplaces : (m * 2 ^ e : ℚ) = (m * 2 ^ (e - lastPlace x).toNat : ℕ) * 2 ^ lastPlace x := by
      push_cast
      rw [mul_assoc, ← zpow_natCast, ← zpow_add₀ two_ne_zero, Int.toNat_of_nonneg (by omega), sub_add_cancel]
    rw [hplaces]
    exact rounded_closest_places hx _
  · -- the float is below the power of two that leads the value, and that power is a whole number of last places
    have hplace : Int.log 2 x = 52 + lastPlace x := by
      rw [lastPlace] at hlt ⊢
      omega
    obtain rfl | hpos := hx.eq_or_lt
    · rw [rounded_zero, sub_zero, abs_zero]
      exact abs_nonneg _
    have hlead : (2 : ℚ) ^ (52 + lastPlace x) ≤ x := hplace ▸ Int.zpow_log_le_self one_lt_two hpos
    have hbelow : (m * 2 ^ e : ℚ) ≤ 2 ^ (52 + lastPlace x) := by
      calc (m * 2 ^ e : ℚ) ≤ 2 ^ (53 : ℤ) * 2 ^ e :=
            mul_le_mul_of_nonneg_right (by exact_mod_cast hshort.le) (by positivity)
        _ = 2 ^ (53 + e) := (zpow_add₀ two_ne_zero _ _).symm
        _ ≤ 2 ^ (52 + lastPlace x) := zpow_le_zpow_right₀ one_le_two (by omega)
    have hplaces := rounded_closest_places hx (2 ^ 52)
    have hpower : ((2 ^ 52 : ℕ) : ℚ) = 2 ^ (52 : ℤ) := by norm_cast
    rw [hpower, ← zpow_add₀ two_ne_zero] at hplaces
    calc |x - rounded x| ≤ |x - 2 ^ (52 + lastPlace x)| := hplaces
      _ = x - 2 ^ (52 + lastPlace x) := abs_of_nonneg (by linarith)
      _ ≤ x - m * 2 ^ e := by linarith
      _ ≤ |x - m * 2 ^ e| := le_abs_self _

private theorem nearestRat_closest (x : ℚ) {u : UnpackedFloat} (hu : Rounded u) : |x - nearestRat x| ≤ |x - toRat u| := by
  -- among the floats of one size, the one with the sign of the value is the closest
  refine le_trans ?_ (abs_abs_sub_abs_le x (toRat u))
  have hsame : |x - nearestRat x| = abs (|x| - rounded |x|) := by
    rw [nearestRat]
    split_ifs with hx
    · rw [abs_of_neg hx, ← abs_neg]
      congr 1
      ring
    · rw [abs_of_nonneg (not_lt.mp hx)]
  rw [hsame]
  cases u with
  | finite s m e hm =>
    rw [abs_toRat_finite]
    exact rounded_closest (abs_nonneg x) hu
  | _ =>
    have hzero := rounded_closest_places (abs_nonneg x) 0
    rw [Nat.cast_zero, zero_mul] at hzero
    simpa [toRat] using hzero

end Binary64

/-- No float is closer to a number than a finite float that is nearest to it. -/
theorem Nearest.closest {x : ℚ} {v : Float} (h : Nearest x v) (hv : v.isFinite = true) (w : Float) :
    |x - toRat v| ≤ |x - toRat w| := by
  rw [h.toRat_eq hv]
  exact nearestRat_closest x (rounded_unpack _)

end WireCut
