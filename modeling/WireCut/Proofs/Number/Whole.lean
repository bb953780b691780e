import WireCut.Proofs.Number.Closest
import WireCut.Proofs.Number.Order

/-! Whole numbers of any size as floats. A long significand that was shortened is rounded like the whole one, so a whole
number is rounded once, and one that is not larger in size than a number within the range of floats is within it too. -/
namespace WireCut

open Float.Model UnpackedFloat Binary64

namespace Binary64

/-- Values with the same leading bits and the same accuracy are rounded to the same float. -/
private theorem nearestRat_congr (s : Sign) {m : ℕ} {e : ℤ} {a : Accuracy} (he : e ≤ target m e) {y z : ℚ}
    (hy : Represents (ExtendedMantissa.ofMantissaAndAccuracy m a) y)
    (hz : Represents (ExtendedMantissa.ofMantissaAndAccuracy m a) z) :
    nearestRat (sgn s * (y * 2 ^ e)) = nearestRat (sgn s * (z * 2 ^ e)) :=
  (toRat_roundWithAccuracy s he hy).symm.trans (toRat_roundWithAccuracy s he hz)

theorem represents_below {m : ℕ} {y : ℚ} (hlow : m < y) (hhigh : y < m + 1 / 2) :
    Represents (ExtendedMantissa.ofMantissaAndAccuracy m (.inexact .lt)) y := by
  simp [Represents, halves, ExtendedMantissa.ofMantissaAndAccuracy]
  constructor <;> linarith

theorem represents_above {m : ℕ} {y : ℚ} (hlow : m + 1 / 2 < y) (hhigh : y < m + 1) :
    Represents (ExtendedMantissa.ofMantissaAndAccuracy m (.inexact .gt)) y := by
  simp [Represents, halves, ExtendedMantissa.ofMantissaAndAccuracy]
  constructor <;> linarith

end Binary64

namespace Exact

/-- A significand that had bits beyond the first sixty-four lies between two neighbours of what is kept of it, and so
does what is kept once its last bit is set. -/
private theorem shorten_between {m q k : ℕ} (hq : q = m / 2 ^ k) (hrest : q * 2 ^ k ≠ m) :
    (q : ℚ) < m / 2 ^ k ∧ (m / 2 ^ k : ℚ) < q + 1 := by
  have hpos : (0 : ℚ) < 2 ^ k := by positivity
  have hlow : q * 2 ^ k < m := lt_of_le_of_ne (hq ▸ Nat.div_mul_le_self m (2 ^ k)) hrest
  have hhigh : m < (q + 1) * 2 ^ k := hq ▸ Nat.lt_mul_of_div_lt (Nat.lt_succ_self _) (Nat.two_pow_pos k)
  rw [lt_div_iff₀ hpos, div_lt_iff₀ hpos]
  exact ⟨by exact_mod_cast hlow, by exact_mod_cast hhigh⟩

/-- A significand that was shortened is rounded like the whole one. -/
private theorem nearestRat_shorten (s : Sign) (m : ℕ) (e : ℤ) :
    nearestRat (sgn s * ((shorten m).1 * 2 ^ (e + (shorten m).2))) = nearestRat (sgn s * (m * 2 ^ e)) := by
  obtain hsmall | hlarge := le_or_gt m.log2 63
  · rw [shorten_small hsmall, Nat.cast_zero, add_zero]
  obtain ⟨hne, hlog⟩ := log2_shiftRight (k := m.log2 - 63) (by omega) (show m ≠ 0 by rintro rfl; cases hlarge)
  simp only [shorten, Nat.shiftLeft_eq]
  generalize hk : m.log2 - 63 = k at hne hlog ⊢
  generalize hq : m >>> k = q at hne hlog ⊢
  rw [Nat.shiftRight_eq_div_pow] at hq
  split_ifs with hrest
  · -- all dropped bits are zero
    have hvalue : (q * 2 ^ (e + k) : ℚ) = m * 2 ^ e := by
      rw [← hrest, Nat.cast_mul, Nat.cast_pow, Nat.cast_ofNat, add_comm, zpow_add₀ two_ne_zero, zpow_natCast, mul_assoc]
    rw [hvalue]
  · -- both values are strictly between the same halves of the place two bits above the last one that is kept
    obtain ⟨hlow, hhigh⟩ := shorten_between hq.symm hrest
    obtain ⟨-, hlog'⟩ := log2_shiftRight (m := q) (k := 2) (by omega) hne
    have hodd : (q ||| 1) % 2 = 1 := Nat.or_mod_two_eq_one.mpr (.inr rfl)
    have hhalf : (q ||| 1) / 2 = q / 2 := by rw [Nat.or_div_two, Nat.or_zero]
    generalize hp : q ||| 1 = p at hodd hhalf ⊢
    rw [Nat.shiftRight_eq_div_pow] at hlog'
    have hplace : e + k + 2 ≤ target (q / 2 ^ 2) (e + k + 2) := by
      rw [target, hlog']
      omega
    have hkept : (p * 2 ^ (e + k) : ℚ) = p / 4 * 2 ^ (e + k + 2) := by
      rw [zpow_add₀ two_ne_zero (e + k)]
      norm_num
      ring
    have hwhole : (m * 2 ^ e : ℚ) = m / 2 ^ k / 4 * 2 ^ (e + k + 2) := by
      rw [zpow_add₀ two_ne_zero (e + k), zpow_add₀ two_ne_zero e, zpow_natCast]
      norm_num
      field_simp
    rw [hkept, hwhole]
    by_cases hbit : q / 2 % 2 = 0
    · have hpart : p = 4 * (q / 2 ^ 2) + 1 := by omega
      have hp' : (p : ℚ) = 4 * (q / 2 ^ 2 : ℕ) + 1 := by exact_mod_cast hpart
      have hbelow : (4 * (q / 2 ^ 2 : ℕ) : ℚ) ≤ q := by exact_mod_cast (by omega : 4 * (q / 2 ^ 2) ≤ q)
      have habove : (q + 1 : ℚ) ≤ 4 * (q / 2 ^ 2 : ℕ) + 2 := by
        exact_mod_cast (by omega : q + 1 ≤ 4 * (q / 2 ^ 2) + 2)
      exact nearestRat_congr s hplace (represents_below (by linarith) (by linarith))
        (represents_below (by linarith) (by linarith))
    · have hpart : p = 4 * (q / 2 ^ 2) + 3 := by omega
      have hp' : (p : ℚ) = 4 * (q / 2 ^ 2 : ℕ) + 3 := by exact_mod_cast hpart
      have hbelow : (4 * (q / 2 ^ 2 : ℕ) + 2 : ℚ) ≤ q := by exact_mod_cast (by omega : 4 * (q / 2 ^ 2) + 2 ≤ q)
      have habove : (q + 1 : ℚ) ≤ 4 * (q / 2 ^ 2 : ℕ) + 4 := by
        exact_mod_cast (by omega : q + 1 ≤ 4 * (q / 2 ^ 2) + 4)
      exact nearestRat_congr s hplace (represents_above (by linarith) (by linarith))
        (represents_above (by linarith) (by linarith))

end Exact

/-- A product of any size is rounded once. -/
theorem Nearest.exact (negative : Bool) (m : ℕ) (e : ℤ) :
    Nearest (Exact.finite negative m e).value (Exact.nearest negative m e) := by
  have hround := rounding_round (if negative then .negative else .positive) (Exact.shorten m).1
    (e + (Exact.shorten m).2)
  refine Nearest.of_unpack hround.rounded hround.isFinite ?_ rfl
  rw [toRat_round, Exact.nearestRat_shorten, Exact.value]
  cases negative <;> rfl

namespace Quantity

/-- A quantity within the range of floats is rounded once. -/
private theorem nearest_spec {q : Quantity} (h : q.isFinite = true) : Nearest q.value q.nearest := by
  cases q with
  | truth b =>
    rw [value_truth]
    cases b
    · exact Nearest.self (v := 0) rfl
    · have hone := Nearest.self Nearest.one_isFinite
      rwa [Nearest.toRat_one] at hone
  | whole n => exact Nearest.exact _ _ _
  | float v =>
    rw [value_float]
    exact Nearest.self h

private theorem nearest_isFinite {q : Quantity} (hq : q.isFinite = true) (hfits : q.fits = true) : q.nearest.isFinite = true := by
  cases q with
  | truth b => cases b <;> rfl
  | whole n => exact hfits
  | float v => exact hq

/-- A whole number that is not larger in size than a finite quantity within the range of floats is within it too. -/
theorem whole_fits {q : Quantity} {n : ℤ} (hq : q.isFinite = true) (hfits : q.fits = true) (h : |(n : ℚ)| ≤ |q.value|) :
    (whole n).fits = true := by
  have hwhole : Nearest (n : ℚ) (whole n).nearest := value_whole n ▸ nearest_spec (q := whole n) rfl
  exact (hwhole.mono (nearest_spec hq) h (nearest_isFinite hq hfits)).1

end Quantity

end WireCut
