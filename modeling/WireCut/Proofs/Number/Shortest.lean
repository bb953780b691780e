import WireCut.Number.Decimal
import WireCut.Proofs.Number.Scientific

/-! The shortest decimal of a float. It is rounded to that float. -/
namespace WireCut

open Binary64

namespace Binary64

def interval (closed : Bool) (low high : ℚ) : Set ℚ :=
  if closed then Set.Icc low high else Set.Ioo low high

private theorem bounds_of_mem {closed : Bool} {low high x : ℚ} (h : x ∈ interval closed low high) : low ≤ x ∧ x ≤ high := by
  cases closed with
  | false => exact ⟨h.1.le, h.2.le⟩
  | true => exact h

theorem mem_interval_of_lt {closed : Bool} {low high x : ℚ} (hlow : low < x) (hhigh : x < high) :
    x ∈ interval closed low high := by
  cases closed with
  | false => exact ⟨hlow, hhigh⟩
  | true => exact ⟨hlow.le, hhigh.le⟩

/-- Scaling keeps the ends apart from what is between them. -/
private theorem div_mem_interval {closed : Bool} {low high x t : ℚ} (ht : 0 < t)
    (h : x ∈ interval closed (low * t) (high * t)) : x / t ∈ interval closed low high := by
  cases closed with
  | false => exact ⟨(lt_div_iff₀ ht).mpr h.1, (div_lt_iff₀ ht).mpr h.2⟩
  | true => exact ⟨(le_div_iff₀ ht).mpr h.1, (div_le_iff₀ ht).mpr h.2⟩

/-- A value that is at most a half away from an integer is rounded to it, where only an even one has its ends. -/
private theorem halfEven_eq {y : ℚ} {n : ℕ} (hy : 0 ≤ y) (h : y ∈ interval (n % 2 = 0) (n - 1 / 2) (n + 1 / 2)) :
    halfEven y = n := by
  obtain ⟨hlow, hhigh⟩ := bounds_of_mem h
  have hodd (hn : n % 2 = 1) : n - 1 / 2 < y ∧ y < n + 1 / 2 := by
    have hopen : decide (n % 2 = 0) = false := decide_eq_false (by omega)
    rw [hopen] at h
    exact h
  obtain hlt | hge := lt_or_ge y n
  · -- the floor is the integer below
    have hpos : 0 < n := by exact_mod_cast hy.trans_lt hlt
    obtain ⟨j, rfl⟩ := Nat.exists_eq_succ_of_ne_zero hpos.ne'
    push_cast at hlow hlt hodd
    have hfloor : ⌊y⌋₊ = j := (Nat.floor_eq_iff hy).mpr ⟨by linarith, hlt⟩
    rw [halfEven, hfloor]
    split_ifs with hbelow habove
    · linarith
    · rfl
    · have heven : (j + 1) % 2 ≠ 1 := fun hj => by have := (hodd hj).1; linarith
      omega
  · have hfloor : ⌊y⌋₊ = n := (Nat.floor_eq_iff hy).mpr ⟨hge, by linarith⟩
    rw [halfEven, hfloor]
    split_ifs with hbelow habove
    · rfl
    · linarith
    · have heven : n % 2 ≠ 1 := fun hn => by have := (hodd hn).2; linarith
      omega

theorem lastPlace_mul {y : ℚ} {e : ℤ} (hy : 0 < y) (he : -1074 ≤ e) (hhigh : y < 2 ^ 53) (hlow : e = -1074 ∨ 2 ^ 52 ≤ y) :
    lastPlace (y * 2 ^ e) = e := by
  have hx : 0 < y * 2 ^ e := by positivity
  have hbelow : Int.log 2 (y * 2 ^ e) < 53 + e := by
    rw [← Int.lt_zpow_iff_log_lt one_lt_two hx, Nat.cast_ofNat, zpow_add₀ two_ne_zero]
    exact mul_lt_mul_of_pos_right (by exact_mod_cast hhigh) (by positivity)
  rw [lastPlace]
  obtain rfl | hlow := hlow
  · omega
  · have habove : 52 + e ≤ Int.log 2 (y * 2 ^ e) := by
      rw [← Int.zpow_le_iff_le_log one_lt_two hx, Nat.cast_ofNat, zpow_add₀ two_ne_zero]
      exact mul_le_mul_of_nonneg_right (by exact_mod_cast hlow) (by positivity)
    omega

/-- How far below a float the reals reach that are rounded to it, in units of its last place. The floats right below a
power of two are closer together. -/
def slack (m : ℕ) (e : ℤ) : ℚ :=
  if m = 2 ^ 52 ∧ -1074 < e then 1 / 4 else 1 / 2

private theorem quarter_le_slack (m : ℕ) (e : ℤ) : 1 / 4 ≤ slack m e := by
  rw [slack]
  split_ifs <;> norm_num

/-- Half a last place around a float that is no power of two, and above one that is, the last place is the same. -/
private theorem lastPlace_near {m : ℕ} {e : ℤ} (hm : 0 < m) (he : e = target m e) {y : ℚ} (hlow : m - 1 / 2 ≤ y)
    (hhigh : y ≤ m + 1 / 2) (hpower : m = 2 ^ 52 ∧ -1074 < e → (m : ℚ) ≤ y) : lastPlace (y * 2 ^ e) = e := by
  obtain ⟨hshort, hleast, hnormal⟩ := Rounded.bits (s := .positive) (h := hm) he
  have hone : (1 : ℚ) ≤ m := by exact_mod_cast hm
  have hlast : (m : ℚ) ≤ 2 ^ 53 - 1 := by
    have : (m + 1 : ℕ) ≤ (2 ^ 53 : ℚ) := by exact_mod_cast hshort
    push_cast at this
    linarith
  refine lastPlace_mul (by linarith) hleast (by linarith) (or_iff_not_imp_left.mpr fun hne => ?_)
  have hfull : 2 ^ 52 ≤ m := hnormal.resolve_right hne ▸ Nat.log2_self_le hm.ne'
  obtain rfl | hmore := hfull.eq_or_lt
  · exact_mod_cast hpower ⟨rfl, by omega⟩
  · have hnext : (2 ^ 52 + 1 : ℚ) ≤ m := by exact_mod_cast hmore
    linarith

/-- What is half a last place around a multiple of it is rounded to the multiple, where only an even one has the ends. -/
theorem rounded_of_lastPlace {y : ℚ} {n : ℕ} {e : ℤ} (hplace : lastPlace (y * 2 ^ e) = e) (hy : 0 ≤ y)
    (h : y ∈ interval (n % 2 = 0) (n - 1 / 2) (n + 1 / 2)) : rounded (y * 2 ^ e) = n * 2 ^ e := by
  rw [rounded, hplace, mul_div_cancel_right₀ _ (by positivity), halfEven_eq hy h]

/-- What is close to a float is rounded to it. -/
private theorem rounded_eq {m : ℕ} {e : ℤ} (hm : 0 < m) (he : e = target m e) {y : ℚ}
    (h : y ∈ interval (m % 2 = 0) (m - slack m e) (m + 1 / 2)) : rounded (y * 2 ^ e) = m * 2 ^ e := by
  obtain ⟨hlow, hhigh⟩ := bounds_of_mem h
  by_cases hbelow : (m = 2 ^ 52 ∧ -1074 < e) ∧ y < m
  · -- the last place is the one below the power of two
    obtain ⟨hpower, hlt⟩ := hbelow
    rw [slack, if_pos hpower] at hlow
    obtain ⟨rfl, hbig⟩ := hpower
    push_cast at hlow hlt ⊢
    have hplace : lastPlace (2 * y * 2 ^ (e - 1)) = e - 1 :=
      lastPlace_mul (by linarith) (by omega) (by linarith) (.inr (by linarith))
    have hround : rounded (2 * y * 2 ^ (e - 1)) = (2 ^ 53 : ℕ) * 2 ^ (e - 1) := by
      refine rounded_of_lastPlace hplace (by linarith) ⟨?_, ?_⟩ <;> push_cast <;> linarith
    have hdouble (x : ℚ) : 2 * x * 2 ^ (e - 1) = x * 2 ^ e := by
      rw [zpow_sub_one₀ two_ne_zero]
      ring
    rw [← hdouble, ← hdouble, hround]
    norm_num
  · have hhalf : y ∈ interval (m % 2 = 0) (m - 1 / 2) (m + 1 / 2) := by
      by_cases hpower : m = 2 ^ 52 ∧ -1074 < e
      · have hge : (m : ℚ) ≤ y := not_lt.mp fun hlt => hbelow ⟨hpower, hlt⟩
        have heven : decide (m % 2 = 0) = true := by rw [hpower.1]; decide
        rw [heven]
        exact ⟨by linarith, hhigh⟩
      · rwa [slack, if_neg hpower] at h
    have hlow := (bounds_of_mem hhalf).1
    have hone : (1 : ℚ) ≤ m := by exact_mod_cast hm
    have hplace := lastPlace_near hm he hlow hhigh fun hpower => not_lt.mp fun hlt => hbelow ⟨hpower, hlt⟩
    exact rounded_of_lastPlace hplace (by linarith) hhalf

end Binary64

namespace Decimal
variable {num den low mid high : ℕ} {k : ℤ}

def value (d : Decimal) : ℚ :=
  d.digits * 10 ^ d.exponent

private theorem inUnits_value (num : ℕ) (hden : 0 < den) (k : ℤ) :
    0 < (inUnits num den k).2 ∧ ((inUnits num den k).1 / (inUnits num den k).2 : ℚ) = num / den / 10 ^ k := by
  have hpos : 0 < den * Nat.pow 10 k.toNat := Nat.mul_pos hden (Nat.pow_pos (by decide))
  refine ⟨hpos, ?_⟩
  have hpower : (10 : ℚ) ^ k = 10 ^ k.toNat / 10 ^ (-k).toNat := by
    rw [← zpow_natCast, ← zpow_natCast, ← zpow_sub₀ (by norm_num)]
    congr 1
    omega
  simp only [inUnits, Nat.pow_eq]
  rw [hpower]
  push_cast
  field_simp

private theorem reaches_iff (num : ℕ) (hden : 0 < den) (k : ℤ) : reaches num den k = true ↔ (10 ^ k : ℚ) ≤ num / den := by
  obtain ⟨hpos, hvalue⟩ := inUnits_value num hden k
  have hcompare : reaches num den k = true ↔ ((inUnits num den k).2 : ℚ) ≤ (inUnits num den k).1 := by
    rw [Nat.cast_le]
    exact decide_eq_true_iff
  rw [hcompare, ← one_le_div₀ (by exact_mod_cast hpos), hvalue, one_le_div₀ (by positivity)]

private theorem reaches_climb {steps : ℕ} (h : reaches num den k = true) : reaches num den (climb num den steps k) = true := by
  induction steps generalizing k with
  | zero => exact h
  | succ steps ih =>
    rw [climb]
    split
    · rename_i hnext
      exact ih hnext
    · exact h

/-- A power of ten with an exponent that is less than `30103 / 100000` of that of a power of two. -/
private theorem ten_le_two {l : ℤ} (hl : l.natAbs ≤ 10000) (h : 100000 * k ≤ 30103 * l - 100000) : (10 ^ k : ℚ) ≤ 2 ^ l := by
  have hbelow : (10 : ℚ) ^ (3010 : ℤ) ≤ 2 ^ (10000 : ℤ) := by
    have : 10 ^ 3010 ≤ 2 ^ 10000 := by decide +kernel
    exact_mod_cast this
  have habove : (2 : ℚ) ^ (10000 : ℤ) ≤ 10 ^ (3011 : ℤ) := by
    have : 2 ^ 10000 ≤ 10 ^ 3011 := by decide +kernel
    exact_mod_cast this
  refine le_of_pow_le_pow_left₀ (n := 10000) (by decide) (by positivity) ?_
  rw [← zpow_natCast, ← zpow_natCast, ← zpow_mul, ← zpow_mul]
  obtain hneg | hnonneg := lt_or_ge l 0
  · calc (10 : ℚ) ^ (k * (10000 : ℕ)) ≤ 10 ^ (3011 * l) := zpow_le_zpow_right₀ (by norm_num) (by push_cast; omega)
      _ = (10 ^ (3011 : ℤ)) ^ l := zpow_mul _ _ _
      _ ≤ (2 ^ (10000 : ℤ)) ^ l := zpow_anti hneg.le (by positivity) habove
      _ = 2 ^ (l * (10000 : ℕ)) := by rw [← zpow_mul, mul_comm]; rfl
  · calc (10 : ℚ) ^ (k * (10000 : ℕ)) ≤ 10 ^ (3010 * l) := zpow_le_zpow_right₀ (by norm_num) (by push_cast; omega)
      _ = (10 ^ (3010 : ℤ)) ^ l := zpow_mul _ _ _
      _ ≤ (2 ^ (10000 : ℤ)) ^ l := zpow_le_zpow_left₀ hnonneg (by positivity) hbelow
      _ = 2 ^ (l * (10000 : ℕ)) := by rw [← zpow_mul, mul_comm]; rfl

/-- The magnitude is not too large. -/
private theorem ten_magnitude_le (hnum : 0 < num) (hden : 0 < den) (hl : ((num.log2 : ℤ) - den.log2 - 1).natAbs ≤ 10000) :
    (10 ^ magnitude num den : ℚ) ≤ num / den := by
  rw [← reaches_iff num hden, magnitude]
  refine reaches_climb ((reaches_iff num hden _).mpr ?_)
  have hfloor := Int.fdiv_eq_ediv_of_nonneg (((num.log2 : ℤ) - den.log2 - 1) * 30103) (show (0 : ℤ) ≤ 100000 by decide)
  have hlow : (2 ^ num.log2 : ℚ) ≤ num := by exact_mod_cast Nat.log2_self_le hnum.ne'
  have hhigh : (den : ℚ) ≤ 2 ^ (den.log2 + 1) := by exact_mod_cast Nat.lt_log2_self.le
  calc (10 : ℚ) ^ ((((num.log2 : ℤ) - den.log2 - 1) * 30103).fdiv 100000 - 1)
      ≤ 2 ^ ((num.log2 : ℤ) - den.log2 - 1) := ten_le_two hl (by rw [hfloor]; omega)
    _ = 2 ^ num.log2 / 2 ^ (den.log2 + 1) := by
      rw [← zpow_natCast, ← zpow_natCast, ← zpow_sub₀ two_ne_zero]
      congr 1
      push_cast
      ring
    _ ≤ num / den := div_le_div₀ (Nat.cast_nonneg num) hlow (by exact_mod_cast hden) hhigh

/-- A rounded quotient is off by at most a half. -/
private theorem roundDiv_near (num : ℕ) (hden : 0 < den) : |(roundDiv num den : ℚ) - num / den| ≤ 1 / 2 := by
  have hpos : (0 : ℚ) < den := by exact_mod_cast hden
  have hsplit : (num / den : ℚ) = (num / den : ℕ) + (num % den : ℕ) / den := by
    rw [div_eq_iff hpos.ne', add_mul, div_mul_cancel₀ _ hpos.ne']
    exact_mod_cast (Nat.div_add_mod' num den).symm
  have hrest : ((num % den : ℕ) / den : ℚ) < 1 := (div_lt_one hpos).mpr (by exact_mod_cast Nat.mod_lt num hden)
  have hnonneg : (0 : ℚ) ≤ (num % den : ℕ) / den := by positivity
  simp only [roundDiv]
  rw [hsplit, abs_le]
  split
  · rename_i hup
    have hhalf : 1 / 2 ≤ ((num % den : ℕ) / den : ℚ) := by
      rw [div_le_div_iff₀ two_pos hpos]
      have : den ≤ num % den * 2 := by
        simp only [Bool.or_eq_true, Bool.and_eq_true, decide_eq_true_eq] at hup
        omega
      exact_mod_cast (by omega : 1 * den ≤ num % den * 2)
    push_cast
    constructor <;> linarith
  · rename_i hdown
    have hhalf : ((num % den : ℕ) / den : ℚ) ≤ 1 / 2 := by
      rw [div_le_div_iff₀ hpos two_pos]
      have : num % den * 2 ≤ den := by
        simp only [Bool.or_eq_true, decide_eq_true_eq] at hdown
        omega
      exact_mod_cast (by omega : num % den * 2 ≤ 1 * den)
    constructor <;> linarith

private theorem roundDiv_eq_or (num den : ℕ) : roundDiv num den = num / den ∨ roundDiv num den = num / den + 1 := by
  simp only [roundDiv]
  split
  · exact .inr rfl
  · exact .inl rfl

/-- A point of a grid is compared to the ends by counting both in parts of a unit. -/
private theorem mem_of_counts {closed : Bool} {scale unit n : ℕ} (hscale : (scale * (den * 10 ^ k) : ℚ) = unit)
    (hunit : 0 < unit) (hden : 0 < den) (h : (if closed then low * scale ≤ n * unit && n * unit ≤ high * scale
      else low * scale < n * unit && n * unit < high * scale) = true) :
    (n * 10 ^ k : ℚ) ∈ interval closed (low / den) (high / den) := by
  have hden' : (0 : ℚ) < den := by exact_mod_cast hden
  have hunit' : (0 : ℚ) < unit := by exact_mod_cast hunit
  have hten : (0 : ℚ) < 10 ^ k := by positivity
  have hpart : (0 : ℚ) < scale * den := by
    by_contra hzero
    nlinarith
  have hend (a : ℕ) : ((a * scale : ℕ) : ℚ) = a / den * (scale * den) := by
    push_cast
    field_simp
  have hpoint : ((n * unit : ℕ) : ℚ) = n * 10 ^ k * (scale * den) := by
    push_cast
    rw [← hscale]
    ring
  cases closed with
  | false =>
    simp only [Bool.false_eq_true, if_false, Bool.and_eq_true, decide_eq_true_eq] at h
    rw [← Nat.cast_lt (α := ℚ), ← Nat.cast_lt (α := ℚ), hend, hend, hpoint] at h
    exact ⟨lt_of_mul_lt_mul_right h.1 hpart.le, lt_of_mul_lt_mul_right h.2 hpart.le⟩
  | true =>
    simp only [if_true, Bool.and_eq_true, decide_eq_true_eq] at h
    rw [← Nat.cast_le (α := ℚ), ← Nat.cast_le (α := ℚ), hend, hend, hpoint] at h
    exact ⟨le_of_mul_le_mul_right h.1 hpart, le_of_mul_le_mul_right h.2 hpart⟩

/-- What is found on a grid is between the ends. -/
private theorem onGrid_mem {closed : Bool} {n : ℕ} (hden : 0 < den) (h : onGrid low mid high den closed k = some n) :
    (n * 10 ^ k : ℚ) ∈ interval closed (low / den) (high / den) := by
  obtain ⟨hunit, hvalue⟩ := inUnits_value 1 hden k
  have hscale : ((inUnits 1 den k).1 * (den * 10 ^ k) : ℚ) = (inUnits 1 den k).2 := by
    have hunit' : (0 : ℚ) < (inUnits 1 den k).2 := by exact_mod_cast hunit
    rw [Nat.cast_one, div_div, div_eq_div_iff hunit'.ne' (by positivity), one_mul] at hvalue
    exact hvalue
  unfold onGrid at h
  dsimp only at h
  split at h
  · rename_i hfloor hnext
    cases h
    obtain heq | heq := roundDiv_eq_or (mid * (inUnits 1 den k).1) (inUnits 1 den k).2
    · exact heq ▸ mem_of_counts hscale hunit hden hfloor
    · exact heq ▸ mem_of_counts hscale hunit hden hnext
  · rename_i hfloor _
    cases h
    exact mem_of_counts hscale hunit hden hfloor
  · rename_i _ hnext
    cases h
    exact mem_of_counts hscale hunit hden hnext
  · cases h

/-- The search ends between the ends, or at the finest grid. -/
private theorem coarsest_mem_or {closed : Bool} {steps : ℕ} (hden : 0 < den) :
    (coarsest low mid high den closed steps k).value ∈ interval closed (low / den) (high / den) ∨
      |(coarsest low mid high den closed steps k).value - mid / den| ≤ 10 ^ (k - steps) / 2 := by
  induction steps generalizing k with
  | zero =>
    refine .inr ?_
    obtain ⟨hunit, hvalue⟩ := inUnits_value mid hden k
    have hnear := roundDiv_near (inUnits mid den k).1 hunit
    have hten : (0 : ℚ) < 10 ^ k := by positivity
    rw [hvalue, le_div_iff₀ two_pos, mul_comm] at hnear
    have hscaled : (roundDiv (inUnits mid den k).1 (inUnits mid den k).2 * 10 ^ k - mid / den : ℚ) =
        (roundDiv (inUnits mid den k).1 (inUnits mid den k).2 - mid / den / 10 ^ k) * 10 ^ k := by
      field_simp
    rw [coarsest, value, Nat.cast_zero, sub_zero, hscaled, abs_mul, abs_of_pos hten]
    linarith [mul_le_mul_of_nonneg_right hnear hten.le]
  | succ steps ih =>
    rw [coarsest]
    split
    · rename_i hfound
      exact .inl (onGrid_mem hden hfound)
    · have hnext : k - (steps + 1 : ℕ) = k - 1 - steps := by omega
      rw [hnext]
      exact ih

/-- Seventeen digits are enough for a value whose ends are not too close. -/
private theorem coarsest_mem {closed : Bool} (hden : 0 < den) (hlow : (low / den : ℚ) < mid / den - 10 ^ (k - 17) / 2)
    (hhigh : (mid / den + 10 ^ (k - 17) / 2 : ℚ) < high / den) :
    (coarsest low mid high den closed 18 (k + 1)).value ∈ interval closed (low / den) (high / den) := by
  refine Or.elim (coarsest_mem_or hden) id fun hnear => ?_
  have hexp : k + 1 - (18 : ℕ) = k - 17 := by omega
  rw [hexp, abs_le] at hnear
  exact mem_interval_of_lt (by linarith) (by linarith)

private theorem fraction_fst (m : ℕ) (e : ℤ) : (fraction m e).1 = m * 2 ^ e.toNat :=
  Nat.shiftLeft_eq m e.toNat

private theorem fraction_snd (m : ℕ) (e : ℤ) : (fraction m e).2 = 2 ^ (-e).toNat :=
  Nat.one_shiftLeft _

private theorem fraction_value (m : ℕ) (e : ℤ) : ((fraction m e).1 / (fraction m e).2 : ℚ) = m * 2 ^ e := by
  rw [fraction_fst, fraction_snd, div_eq_iff (by positivity)]
  push_cast
  rw [← zpow_natCast, ← zpow_natCast, mul_assoc, ← zpow_add₀ two_ne_zero]
  congr 2
  omega

/-- Quarters of a last place, over the one denominator of them all. -/
private theorem fraction_quarters (n m : ℕ) (e : ℤ) :
    ((fraction n (e - 2)).1 / (fraction m (e - 2)).2 : ℚ) = n / 4 * 2 ^ e := by
  have hvalue : ((fraction n (e - 2)).1 / (fraction m (e - 2)).2 : ℚ) = n * 2 ^ (e - 2) := fraction_value n (e - 2)
  rw [hvalue, zpow_sub₀ two_ne_zero]
  ring

/-- The search of a float runs between the ends of the reals that are rounded to it, in quarters of its last place. -/
private theorem shortest_eq {m : ℕ} (e : ℤ) (hm : 0 < m) :
    ∃ below : ℕ, (below / 4 : ℚ) = slack m e ∧ below ≤ 4 * m ∧
      shortest m e = coarsest (fraction (4 * m - below) (e - 2)).1 (fraction (4 * m) (e - 2)).1
        (fraction (4 * m + 2) (e - 2)).1 (fraction (4 * m) (e - 2)).2 (m % 2 = 0) 18
        (magnitude (fraction (4 * m) (e - 2)).1 (fraction (4 * m) (e - 2)).2 + 1) := by
  have hhigh : (fraction (4 * m) (e - 2)).1 + 2 * 1 <<< (e - 2).toNat = (fraction (4 * m + 2) (e - 2)).1 := by
    rw [fraction_fst, fraction_fst, Nat.one_shiftLeft, Nat.add_mul]
  have hlow (below : ℕ) :
      (fraction (4 * m) (e - 2)).1 - below * 1 <<< (e - 2).toNat = (fraction (4 * m - below) (e - 2)).1 := by
    rw [fraction_fst, fraction_fst, Nat.one_shiftLeft, Nat.sub_mul]
  by_cases hpower : m = 2 ^ 52 ∧ -1074 < e
  · refine ⟨1, ?_, by omega, ?_⟩
    · rw [slack, if_pos hpower, Nat.cast_one]
    · have hif : (m = 1 <<< 52 && -1074 < e) = true := by simpa using hpower
      rw [← hlow, ← hhigh, one_mul]
      unfold shortest
      dsimp only
      rw [if_pos hif]
  · refine ⟨2, ?_, by omega, ?_⟩
    · rw [slack, if_neg hpower]
      norm_num
    · have hif : ¬ (m = 1 <<< 52 && -1074 < e) = true := by simpa using hpower
      rw [← hlow, ← hhigh]
      unfold shortest
      dsimp only
      rw [if_neg hif]

private theorem ten_magnitude_fraction_le {m : ℕ} {e : ℤ} (hm : 0 < m) (hshort : m < 2 ^ 60) (he : e.natAbs ≤ 2000) :
    (10 ^ magnitude (fraction m e).1 (fraction m e).2 : ℚ) ≤ m * 2 ^ e := by
  have hlog := (Nat.log2_lt hm.ne').mpr hshort
  have hnum : (fraction m e).1.log2 = m.log2 + e.toNat := log2_shiftLeft e.toNat hm.ne'
  have hden : (fraction m e).2.log2 = (-e).toNat := by rw [fraction_snd, Nat.log2_two_pow]
  rw [← fraction_value]
  refine ten_magnitude_le ?_ ?_ (by omega)
  · rw [fraction_fst]
    positivity
  · rw [fraction_snd]
    positivity

/-- The shortest decimal is rounded to the float. -/
private theorem rounded_shortest {m : ℕ} {e : ℤ} (hm : 0 < m) (he : e = target m e) (hlarge : e ≤ 971) :
    rounded (shortest m e).value = m * 2 ^ e := by
  obtain ⟨hshort, hleast, -⟩ := Rounded.bits (s := .positive) (h := hm) he
  have hpow : (0 : ℚ) < 2 ^ e := by positivity
  suffices hmem : (shortest m e).value / 2 ^ e ∈ interval (m % 2 = 0) (m - slack m e) (m + 1 / 2) by
    have hround := rounded_eq hm he hmem
    rwa [div_mul_cancel₀ _ hpow.ne'] at hround
  obtain ⟨below, hslack, hbelow, heq⟩ := shortest_eq e hm
  have hquarter := quarter_le_slack m e
  have hmid : ((fraction (4 * m) (e - 2)).1 / (fraction (4 * m) (e - 2)).2 : ℚ) = m * 2 ^ e := by
    rw [fraction_quarters]
    push_cast
    ring
  have hlow : ((fraction (4 * m - below) (e - 2)).1 / (fraction (4 * m) (e - 2)).2 : ℚ) = (m - slack m e) * 2 ^ e := by
    rw [fraction_quarters, Nat.cast_sub hbelow, ← hslack]
    push_cast
    ring
  have hhigh : ((fraction (4 * m + 2) (e - 2)).1 / (fraction (4 * m) (e - 2)).2 : ℚ) = (m + 1 / 2) * 2 ^ e := by
    rw [fraction_quarters]
    push_cast
    ring
  have hmag := ten_magnitude_fraction_le (m := 4 * m) (e := e - 2) (by omega) (by omega) (by omega)
  rw [heq]
  rw [← fraction_value, hmid] at hmag
  generalize magnitude (fraction (4 * m) (e - 2)).1 (fraction (4 * m) (e - 2)).2 = k at hmag ⊢
  -- half a unit of the last of seventeen digits is less than the distance to either end
  have hunit : (10 ^ (k - 17) / 2 : ℚ) < 1 / 4 * 2 ^ e := by
    have hten : (10 : ℚ) ^ (k - 17) = 10 ^ k / 10 ^ 17 := by
      rw [zpow_sub₀ (by norm_num)]
      rfl
    have hm' : (m : ℚ) < 2 ^ 53 := by exact_mod_cast hshort
    rw [hten]
    nlinarith
  refine div_mem_interval hpow ?_
  rw [← hlow, ← hhigh]
  refine coarsest_mem ?_ ?_ ?_
  · rw [fraction_snd]
    positivity
  · rw [hlow, hmid]
    nlinarith
  · rw [hhigh, hmid]
    nlinarith

/-- The shortest decimal of a float has digits other than zero. -/
theorem digits_shortest_pos {v : Float} {negative : Bool} {m : ℕ} {e : ℤ} (hv : Exact.ofFloat v = .finite negative m e)
    (hm : 0 < m) : 0 < (shortest m e).digits := by
  obtain ⟨he, hlarge⟩ := of_unpack_eq (Exact.unpack_of_ofFloat hv hm)
  have hround := rounded_shortest hm he hlarge
  refine Nat.pos_of_ne_zero fun hzero => ?_
  rw [value, hzero, Nat.cast_zero, zero_mul, rounded_zero] at hround
  have : (0 : ℚ) < m * 2 ^ e := by positivity
  linarith

end Decimal

/-- A literal with the value of the shortest decimal of a float is read as that float. -/
theorem Literal.scaled_shortest {v : Float} {negative : Bool} {m n : ℕ} {e k : ℤ}
    (hv : Exact.ofFloat v = .finite negative m e) (hm : 0 < m) (h : (n * 10 ^ k : ℚ) = (Decimal.shortest m e).value) :
    scaled negative n k = v := by
  obtain ⟨he, hlarge⟩ := of_unpack_eq (Exact.unpack_of_ofFloat hv hm)
  exact scaled_eq hv hm (h ▸ Decimal.rounded_shortest hm he hlarge)

end WireCut
