import WireCut.Proofs.Number.Finite

/-! Rounding as a function of the exact value. -/
namespace WireCut

open Float.Model UnpackedFloat

namespace Binary64

def halfEven (x : ℚ) : ℕ :=
  if x - ⌊x⌋₊ < 1 / 2 then ⌊x⌋₊ else if 1 / 2 < x - ⌊x⌋₊ then ⌊x⌋₊ + 1 else ⌊x⌋₊ + ⌊x⌋₊ % 2

private theorem halfEven_bounds (x : ℚ) : ⌊x⌋₊ ≤ halfEven x ∧ halfEven x ≤ ⌊x⌋₊ + 1 := by
  rw [halfEven]
  split_ifs <;> omega

private theorem halfEven_mono {x y : ℚ} (h : x ≤ y) : halfEven x ≤ halfEven y := by
  obtain hlt | heq := (Nat.floor_mono h).lt_or_eq
  · have hx := (halfEven_bounds x).2
    have hy := (halfEven_bounds y).1
    omega
  · simp only [halfEven, heq]
    split_ifs <;> first | omega | linarith

@[simp] theorem halfEven_zero : halfEven 0 = 0 := by
  simp [halfEven]

/-- The exponent of the last bit of the float that is nearest to a value. -/
def lastPlace (x : ℚ) : ℤ :=
  max (Int.log 2 x - 52) (-1074)

/-- The value of the float that is nearest to a value that is not negative, if no float is too small for it. -/
def rounded (x : ℚ) : ℚ :=
  halfEven (x / 2 ^ lastPlace x) * 2 ^ lastPlace x

theorem rounded_zero : rounded 0 = 0 := by
  simp [rounded]

theorem rounded_nonneg (x : ℚ) : 0 ≤ rounded x :=
  mul_nonneg (Nat.cast_nonneg _) (zpow_nonneg (by norm_num) _)

private theorem rounded_le_pow {x : ℚ} (hx : 0 < x) : rounded x ≤ 2 ^ (lastPlace x + 53) := by
  have hpow : (0 : ℚ) < 2 ^ lastPlace x := by positivity
  have hlt : x / 2 ^ lastPlace x < 2 ^ 53 := by
    rw [div_lt_iff₀ hpow, ← zpow_natCast, ← zpow_add₀ two_ne_zero]
    refine lt_of_lt_of_le (Int.lt_zpow_succ_log_self one_lt_two x) (zpow_le_zpow_right₀ one_le_two ?_)
    rw [lastPlace]
    push_cast
    omega
  have hfloor : ⌊x / 2 ^ lastPlace x⌋₊ < 2 ^ 53 := (Nat.floor_lt (by positivity)).mpr (by exact_mod_cast hlt)
  have hle : halfEven (x / 2 ^ lastPlace x) ≤ 2 ^ 53 := by
    have := (halfEven_bounds (x / 2 ^ lastPlace x)).2
    omega
  rw [rounded, add_comm, zpow_add₀ two_ne_zero]
  exact mul_le_mul_of_nonneg_right (by exact_mod_cast hle) hpow.le

private theorem pow_le_rounded {x : ℚ} (hx : 0 < x) (h : -1074 < lastPlace x) : 2 ^ (lastPlace x + 52) ≤ rounded x := by
  have hpow : (0 : ℚ) < 2 ^ lastPlace x := by positivity
  have hlog : Int.log 2 x = lastPlace x + 52 := by
    rw [lastPlace] at h ⊢
    omega
  have hge : 2 ^ 52 ≤ x / 2 ^ lastPlace x := by
    rw [le_div_iff₀ hpow, ← zpow_natCast, ← zpow_add₀ two_ne_zero]
    exact (Int.zpow_le_iff_le_log one_lt_two hx).mpr (by rw [hlog]; push_cast; omega)
  have hfloor : 2 ^ 52 ≤ ⌊x / 2 ^ lastPlace x⌋₊ := Nat.le_floor (by exact_mod_cast hge)
  have hle : 2 ^ 52 ≤ halfEven (x / 2 ^ lastPlace x) := hfloor.trans (halfEven_bounds _).1
  rw [rounded, add_comm, zpow_add₀ two_ne_zero]
  exact mul_le_mul_of_nonneg_right (by exact_mod_cast hle) hpow.le

/-- A larger value is not rounded to a smaller one. -/
theorem rounded_mono {x y : ℚ} (hx : 0 ≤ x) (h : x ≤ y) : rounded x ≤ rounded y := by
  obtain rfl | hpos := hx.eq_or_lt
  · rw [rounded_zero]
    exact rounded_nonneg y
  have hplace : lastPlace x ≤ lastPlace y := max_le_max_right _ (Int.sub_le_sub_right (Int.log_mono_right hpos h) _)
  obtain hlt | heq := hplace.lt_or_eq
  · -- the value with the larger place is rounded up to at least the bound of the other one
    have hlow : -1074 < lastPlace y := lt_of_le_of_lt (le_max_right _ _) hlt
    calc rounded x ≤ 2 ^ (lastPlace x + 53) := rounded_le_pow hpos
      _ ≤ 2 ^ (lastPlace y + 52) := zpow_le_zpow_right₀ one_le_two (by omega)
      _ ≤ rounded y := pow_le_rounded (hpos.trans_le h) hlow
  · rw [rounded, rounded, heq]
    have hdiv : x / 2 ^ lastPlace y ≤ y / 2 ^ lastPlace y := div_le_div_of_nonneg_right h (by positivity)
    exact mul_le_mul_of_nonneg_right (by exact_mod_cast halfEven_mono hdiv) (by positivity)

def halves (em : ExtendedMantissa) : ℚ :=
  em.mantissa + if em.roundBit then 1 / 2 else 0

/-- A significand with its round bit and its sticky bit says where a value lies between two significands. -/
def Represents (em : ExtendedMantissa) (x : ℚ) : Prop :=
  if em.stickyBit then halves em < x ∧ x < halves em + 1 / 2 else x = halves em

private theorem halves_shiftRightOne (em : ExtendedMantissa) : halves em.shiftRightOne = em.mantissa / 2 := by
  have hhalf : (em.mantissa : ℚ) = 2 * (em.mantissa / 2 : ℕ) + (em.mantissa % 2 : ℕ) := by
    exact_mod_cast (Nat.div_add_mod em.mantissa 2).symm
  rw [hhalf, halves, ExtendedMantissa.shiftRightOne]
  obtain hbit | hbit := Nat.mod_two_eq_zero_or_one em.mantissa <;> simp [hbit]
  ring

namespace Represents
variable {em : ExtendedMantissa} {x : ℚ}

private theorem bounds (h : Represents em x) : em.mantissa ≤ x ∧ x < em.mantissa + 1 := by
  rcases em with ⟨m, _ | _, _ | _⟩ <;> simp [Represents, halves] at h ⊢ <;> constructor <;> linarith

theorem nonneg (h : Represents em x) : 0 ≤ x :=
  (Nat.cast_nonneg _).trans h.bounds.1

/-- The bits are enough to round the value. -/
private theorem roundedMantissa (h : Represents em x) : em.roundedMantissa = halfEven x := by
  rw [halfEven, (Nat.floor_eq_iff h.nonneg).mpr h.bounds]
  rcases em with ⟨m, _ | _, _ | _⟩ <;> simp [Represents, halves] at h <;>
    simp only [ExtendedMantissa.roundedMantissa, ExtendedMantissa.accuracy, Accuracy.roundToNearestEven]
  · rw [if_pos (by linarith)]
  · rw [if_pos (by linarith)]
  · rw [if_neg (by linarith), if_neg (by linarith)]
  · rw [if_neg (by linarith), if_pos (by linarith)]

/-- A bit that is shifted out of the significand becomes the round bit, and the other bits only matter together. -/
private theorem shiftRightOne (h : Represents em x) : Represents em.shiftRightOne (x / 2) := by
  have hbounds := h.bounds
  rw [Represents, halves_shiftRightOne]
  rcases em with ⟨m, _ | _, _ | _⟩ <;> simp [Represents, halves] at h <;>
    simp only [ExtendedMantissa.shiftRightOne, Bool.or_self, Bool.or_true, Bool.true_or, if_true] <;>
    first | exact ⟨by linarith, by linarith⟩ | simp [h]

private theorem shiftRight (h : Represents em x) (k : ℕ) : Represents (em >>> k) (x / 2 ^ k) := by
  change Represents (k.repeat ExtendedMantissa.shiftRightOne em) _
  induction k with
  | zero => simpa [Nat.repeat] using h
  | succ k ih =>
    rw [Nat.repeat, pow_succ, ← div_div]
    exact ih.shiftRightOne

end Represents

theorem represents_exact (m : ℕ) : Represents (ExtendedMantissa.ofMantissaAndAccuracy m .exact) m := by
  simp [Represents, halves, ExtendedMantissa.ofMantissaAndAccuracy]

/-- The quotient of two natural numbers, from its whole part and the accuracy of its rest. -/
theorem represents_div (a : ℕ) {b : ℕ} (hb : 0 < b) :
    Represents (ExtendedMantissa.ofMantissaAndAccuracy (a / b) (accuracyOfFraction (a % b) b)) (a / b : ℚ) := by
  have hpos : (0 : ℚ) < b := by exact_mod_cast hb
  have hsplit : (a / b : ℚ) = (a / b : ℕ) + (a % b : ℕ) / b := by
    rw [div_eq_iff hpos.ne', add_mul, div_mul_cancel₀ _ hpos.ne']
    exact_mod_cast (Nat.div_add_mod' a b).symm
  have hrest : ((a % b : ℕ) : ℚ) < b := by exact_mod_cast Nat.mod_lt a hb
  rw [hsplit, accuracyOfFraction]
  generalize a % b = r at hrest ⊢
  generalize a / b = q
  have hone : (r / b : ℚ) < 1 := (div_lt_one hpos).mpr hrest
  split_ifs with hr
  · simp [Represents, halves, ExtendedMantissa.ofMantissaAndAccuracy, hr]
  · have hzero : (0 : ℚ) < r / b := div_pos (by exact_mod_cast Nat.pos_of_ne_zero hr) hpos
    cases hc : compare (2 * r) b with
    | lt =>
      have hlt : (2 * r : ℚ) < b := by exact_mod_cast Nat.compare_eq_lt.mp hc
      have hhalf : (r / b : ℚ) < 1 / 2 := by rw [div_lt_div_iff₀ hpos two_pos]; linarith
      simp [Represents, halves, ExtendedMantissa.ofMantissaAndAccuracy]
      constructor <;> linarith
    | eq =>
      have heq : (2 * r : ℚ) = b := by exact_mod_cast Nat.compare_eq_eq.mp hc
      have hhalf : (r / b : ℚ) = 1 / 2 := by rw [div_eq_div_iff hpos.ne' two_ne_zero]; linarith
      simp [Represents, halves, ExtendedMantissa.ofMantissaAndAccuracy, hhalf]
    | gt =>
      have hgt : (b : ℚ) < 2 * r := by exact_mod_cast Nat.compare_eq_gt.mp hc
      have hhalf : (1 / 2 : ℚ) < r / b := by rw [div_lt_div_iff₀ two_pos hpos]; linarith
      simp [Represents, halves, ExtendedMantissa.ofMantissaAndAccuracy]
      constructor <;> linarith

/-- The target exponent of a product is the last place of every value between it and the next significand. -/
theorem lastPlace_eq {m : ℕ} {e : ℤ} {y : ℚ} (he : e ≤ target m e) (hlow : m ≤ y) (hhigh : y < m + 1) (hy : 0 < y) :
    lastPlace (y * 2 ^ e) = target m e := by
  have hpos : 0 < y * 2 ^ e := by positivity
  have hlt : Int.log 2 (y * 2 ^ e) < m.log2 + 1 + e := by
    rw [← Int.lt_zpow_iff_log_lt one_lt_two hpos]
    have hbits : y < 2 ^ (m.log2 + 1) := hhigh.trans_le (by exact_mod_cast Nat.lt_log2_self)
    push_cast
    rw [zpow_add₀ two_ne_zero, ← Nat.cast_succ, zpow_natCast]
    exact mul_lt_mul_of_pos_right hbits (by positivity)
  rw [lastPlace]
  rw [target] at he ⊢
  by_cases hm : m = 0
  · have hlog : m.log2 = 0 := by rw [hm, Nat.log2_zero]
    omega
  · have hge : (m.log2 + e : ℤ) ≤ Int.log 2 (y * 2 ^ e) := by
      rw [← Int.zpow_le_iff_le_log one_lt_two hpos, Nat.cast_ofNat, zpow_add₀ two_ne_zero, zpow_natCast]
      have hbits : (2 : ℚ) ^ m.log2 ≤ y := le_trans (by exact_mod_cast Nat.log2_self_le hm) hlow
      exact mul_le_mul_of_nonneg_right hbits (by positivity)
    omega

def sgn : Sign → ℚ
  | .negative => -1
  | .positive => 1

theorem abs_sgn (s : Sign) : |sgn s| = 1 := by
  cases s <;> simp [sgn]

def toRat : UnpackedFloat → ℚ
  | .finite s m e _ => sgn s * (m * 2 ^ e)
  | _ => 0

def nearestRat (x : ℚ) : ℚ :=
  if x < 0 then -rounded (-x) else rounded x

theorem nearestRat_sgn (s : Sign) {x : ℚ} (hx : 0 ≤ x) : nearestRat (sgn s * x) = sgn s * rounded x := by
  obtain rfl | hpos := hx.eq_or_lt
  · simp [nearestRat, rounded_zero]
  · cases s
    · rw [nearestRat, sgn, if_pos (by linarith)]
      simp
    · rw [nearestRat, sgn, if_neg (by linarith)]
      simp

theorem nearestRat_zero : nearestRat 0 = 0 := by
  simp [nearestRat, rounded_zero]

/-- A larger value has no smaller float nearest to it. -/
theorem nearestRat_mono : Monotone nearestRat := by
  intro x y h
  simp only [nearestRat]
  have hneg (z : ℚ) : -rounded (-z) ≤ 0 := neg_nonpos.mpr (rounded_nonneg _)
  split_ifs with hx hy
  · exact neg_le_neg (rounded_mono (by linarith) (by linarith))
  · exact (hneg x).trans (rounded_nonneg y)
  · linarith
  · exact rounded_mono (by linarith) h

/-- Rounding with an accuracy is rounding of the exact value. -/
theorem toRat_roundWithAccuracy (s : Sign) {m : ℕ} {e : ℤ} {a : Accuracy} (he : e ≤ target m e) {y : ℚ}
    (hy : Represents (ExtendedMantissa.ofMantissaAndAccuracy m a) y) :
    toRat (roundWithAccuracy Format.binary64 s m e a) = nearestRat (sgn s * (y * 2 ^ e)) := by
  obtain ⟨hcut, hfull⟩ := cut_bits m e he
  have hleast : -1074 ≤ target m e := Int.le_max_right _ _
  have hbounds := hy.bounds
  rw [ofMantissaAndAccuracy_mantissa] at hbounds
  have hshift := hy.shiftRight (target m e - e).toNat
  have hmant : (ExtendedMantissa.ofMantissaAndAccuracy m a >>> (target m e - e).toNat).mantissa =
      m / 2 ^ (target m e - e).toNat := by
    rw [shiftRight_mantissa, ofMantissaAndAccuracy_mantissa]
  rw [roundWithAccuracy_eq, shiftToTargetExponent_eq m e a he]
  generalize ExtendedMantissa.ofMantissaAndAccuracy m a >>> (target m e - e).toNat = em at hshift hmant ⊢
  obtain ⟨hle, hge⟩ := roundedMantissa_bounds em
  rw [hmant] at hle hge
  obtain ⟨M, E, hM, hE, hlower, -, -, hkept⟩ := second_shift (by omega) hleast fun h => Nat.le_trans (hfull h) hle
  have hsize : toRat (signedProduct s M E) = sgn s * (M * 2 ^ E) := by
    rw [signedProduct]
    split_ifs with hz
    · simp [toRat, hz]
    · rfl
  have hproduct : (M * 2 ^ E : ℚ) = em.roundedMantissa * 2 ^ target m e := by
    rw [← hkept]
    push_cast
    rw [mul_assoc, ← zpow_natCast, ← zpow_add₀ two_ne_zero]
    congr 2
    omega
  have hquotient : y / 2 ^ (target m e - e).toNat = y * 2 ^ e / 2 ^ target m e := by
    rw [div_eq_div_iff (by positivity) (by positivity), mul_assoc, ← zpow_natCast, ← zpow_add₀ two_ne_zero]
    congr 2
    omega
  simp only [hM, hE]
  rw [hsize, hproduct, hshift.roundedMantissa, hquotient, nearestRat_sgn s (mul_nonneg hy.nonneg (by positivity))]
  obtain hzero | hpos := hy.nonneg.eq_or_lt
  · simp [← hzero, rounded]
  · rw [rounded, lastPlace_eq he hbounds.1 hbounds.2 hpos]

/-- Rounding a product is rounding of its value. -/
theorem toRat_round (s : Sign) (m : ℕ) (e : ℤ) :
    toRat (UnpackedFloat.round Format.binary64 s m e) = nearestRat (sgn s * (m * 2 ^ e)) := by
  by_cases hm : m = 0
  · rw [hm, round_zero]
    simp [toRat, nearestRat_zero]
  · obtain ⟨k, heq, -, -, hf⟩ := decreaseExponent_target e hm
    simp only [UnpackedFloat.round, targetExponent_eq, heq]
    rw [toRat_roundWithAccuracy s hf (represents_exact _), Nat.shiftLeft_eq]
    congr 2
    push_cast
    rw [mul_assoc, ← zpow_natCast, ← zpow_add₀ two_ne_zero]
    congr 2
    omega

theorem toRat_normalize (m e : ℤ) (s : Sign) :
    toRat (UnpackedFloat.normalize Format.binary64 m e s) = nearestRat (m * 2 ^ e) := by
  rw [UnpackedFloat.normalize]
  cases hc : compare m 0 with
  | lt =>
    have hneg := Int.compare_eq_lt.mp hc
    have hcast : (((-m).toNat : ℕ) : ℚ) = -m := by exact_mod_cast Int.toNat_of_nonneg (by omega : 0 ≤ -m)
    rw [toRat_round, hcast, sgn]
    congr 1
    ring
  | eq => simp [Int.compare_eq_eq.mp hc, toRat, nearestRat_zero]
  | gt =>
    have hpos := Int.compare_eq_gt.mp hc
    have hcast : ((m.toNat : ℕ) : ℚ) = m := by exact_mod_cast Int.toNat_of_nonneg hpos.le
    rw [toRat_round, hcast, sgn, one_mul]

end Binary64
end WireCut
