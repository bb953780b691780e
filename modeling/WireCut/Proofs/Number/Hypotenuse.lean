import WireCut.Proofs.Number.Monotone
import WireCut.Proofs.Number.Nonnegative
import WireCut.Proofs.Number.Root

/-! The hypotenuse. It is rounded from a number that is as good as the exact length of the vector, so it is a finite
float if that length is well below the range of floats, and an infinite one if it is well above. -/
namespace WireCut

open Float.Model UnpackedFloat Binary64

section Errors
variable {c d A B P Q S η m : ℚ}

/-- The square of a rounded number, if what is added to the relative error is small beside a given size. -/
private theorem square_error (hη : 0 ≤ η) (hsmall : η ≤ m / 2 ^ 70) (hc : 0 ≤ c) (hle : c ≤ m) (hA : 0 ≤ A)
    (hlow : (1 - 1 / 2 ^ 53) * c - η ≤ A) (hhigh : A ≤ (1 + 1 / 2 ^ 53) * c + η) :
    (1 - 1 / 2 ^ 53) ^ 2 * c ^ 2 - m ^ 2 / 2 ^ 68 ≤ A ^ 2 ∧ A ^ 2 ≤ (1 + 1 / 2 ^ 53) ^ 2 * c ^ 2 + m ^ 2 / 2 ^ 68 := by
  have hm : 0 ≤ m := hc.trans hle
  have hmixed : c * η ≤ m * (m / 2 ^ 70) := mul_le_mul hle hsmall hη hm
  have hsquare : η * η ≤ m / 2 ^ 70 * (m / 2 ^ 70) := mul_le_mul hsmall hsmall hη (by positivity)
  have hm2 : 0 ≤ m ^ 2 := sq_nonneg m
  constructor
  · obtain hneg | hpos := le_total ((1 - 1 / 2 ^ 53) * c) η
    · nlinarith [mul_nonneg hc hη]
    · nlinarith [mul_nonneg hc hη, mul_self_le_mul_self (sub_nonneg.mpr hpos) hlow]
  · nlinarith [mul_nonneg hc hη, mul_self_le_mul_self hA hhigh]

/-- Three roundings of a sum of two squares. -/
private theorem squares_error (hη : 0 ≤ η) (hsmall : η ≤ m ^ 2 / 2 ^ 70)
    (hm : m ^ 2 ≤ c ^ 2 + d ^ 2)
    (hA : (1 - 1 / 2 ^ 53) ^ 2 * c ^ 2 - m ^ 2 / 2 ^ 68 ≤ A ^ 2 ∧ A ^ 2 ≤ (1 + 1 / 2 ^ 53) ^ 2 * c ^ 2 + m ^ 2 / 2 ^ 68)
    (hB : (1 - 1 / 2 ^ 53) ^ 2 * d ^ 2 - m ^ 2 / 2 ^ 68 ≤ B ^ 2 ∧ B ^ 2 ≤ (1 + 1 / 2 ^ 53) ^ 2 * d ^ 2 + m ^ 2 / 2 ^ 68)
    (hP : (1 - 1 / 2 ^ 53) * A ^ 2 - η ≤ P ∧ P ≤ (1 + 1 / 2 ^ 53) * A ^ 2 + η)
    (hQ : (1 - 1 / 2 ^ 53) * B ^ 2 - η ≤ Q ∧ Q ≤ (1 + 1 / 2 ^ 53) * B ^ 2 + η)
    (hS : (1 - 1 / 2 ^ 53) * (P + Q) - η ≤ S ∧ S ≤ (1 + 1 / 2 ^ 53) * (P + Q) + η) :
    (1 - 5 / 2 ^ 53) * (c ^ 2 + d ^ 2) ≤ S ∧ S ≤ (1 + 5 / 2 ^ 53) * (c ^ 2 + d ^ 2) := by
  have hm2 : 0 ≤ m ^ 2 := sq_nonneg m
  constructor <;> linarith

/-- The rounding of a root of what is near to a sum of squares. -/
private theorem root_error {N R : ℚ} (hη : η ≤ m / 2 ^ 70) (hm : 0 < m) (hN : m ^ 2 ≤ N) (hlow : (1 - 5 / 2 ^ 53) * N ≤ S)
    (hhigh : S ≤ (1 + 5 / 2 ^ 53) * N) (hle : ∀ z, 0 ≤ z → S ≤ z ^ 2 → R ≤ (1 + 1 / 2 ^ 53) * z + η)
    (hge : ∀ z, 0 ≤ z → z ^ 2 ≤ S → (1 - 1 / 2 ^ 53) * z - η ≤ R) {z : ℚ} (hz : 0 ≤ z) :
    (N ≤ z ^ 2 → R ≤ (1 + 5 / 2 ^ 53) * z) ∧ (z ^ 2 ≤ N → (1 - 5 / 2 ^ 53) * z ≤ R) := by
  constructor
  · intro h
    have hmz : m ≤ z := le_of_sq_le_sq (hN.trans h) hz
    have hroot := hle ((1 + 3 / 2 ^ 53) * z) (by positivity) (by nlinarith [sq_nonneg z])
    linarith
  · intro h
    -- the given size bounds what is lost besides the relative error
    have hmax : max z m ^ 2 ≤ N := by
      obtain hzm | hmz := le_total z m
      · rwa [max_eq_right hzm]
      · rwa [max_eq_left hmz]
    have hpos : 0 < max z m := lt_max_of_lt_right hm
    have hroot := hge ((1 - 3 / 2 ^ 53) * max z m) (by positivity) (by nlinarith [sq_nonneg (max z m)])
    have hmm := le_max_right z m
    have hzz := le_max_left z m
    linarith

end Errors

def lengthUnit (x y : Float) : Float :=
  let size := if x.abs < y.abs then y.abs else x.abs
  if size < smallLength then Exact.nearest false 1 (-600)
  else if largeLength < size then Exact.nearest false 1 600
  else 1

private theorem hypot_eq (x y : Float) : hypot x y = if x.isInf || y.isInf then infinity
    else (x / lengthUnit x y * (x / lengthUnit x y) + y / lengthUnit x y * (y / lengthUnit x y)).sqrt * lengthUnit x y :=
  rfl

private theorem smallLength_exact : Exact.ofFloat smallLength = .finite false 7371020360979573 (-551) := by decide +kernel

private theorem largeLength_exact : Exact.ofFloat largeLength = .finite false 5503284107318959 446 := by decide +kernel

private theorem toRat_smallLength : 2 ^ (-499 : ℤ) ≤ toRat smallLength ∧ toRat smallLength < 2 ^ (-498 : ℤ) := by
  have hpow : (0 : ℚ) < 2 ^ (-551 : ℤ) := by positivity
  rw [← Exact.value_ofFloat, smallLength_exact, Exact.value, show (-499 : ℤ) = 52 + -551 by rfl,
    show (-498 : ℤ) = 53 + -551 by rfl, zpow_add₀ two_ne_zero, zpow_add₀ two_ne_zero, if_neg Bool.false_ne_true, one_mul]
  exact ⟨mul_le_mul_of_nonneg_right (by norm_num) hpow.le, mul_lt_mul_of_pos_right (by norm_num) hpow⟩

private theorem toRat_largeLength : 2 ^ (498 : ℤ) ≤ toRat largeLength ∧ toRat largeLength < 2 ^ (499 : ℤ) := by
  have hpow : (0 : ℚ) < 2 ^ (446 : ℤ) := by positivity
  rw [← Exact.value_ofFloat, largeLength_exact, Exact.value, show (498 : ℤ) = 52 + 446 by rfl,
    show (499 : ℤ) = 53 + 446 by rfl, zpow_add₀ two_ne_zero, zpow_add₀ two_ne_zero, if_neg Bool.false_ne_true, one_mul]
  exact ⟨mul_le_mul_of_nonneg_right (by norm_num) hpow.le, mul_lt_mul_of_pos_right (by norm_num) hpow⟩

/-- The power of two by which a vector is scaled. No coordinate is large beside it, and unless both are zero, one of them
is not small beside it. -/
private theorem lengthUnit_spec {x y : Float} (hx : x.isFinite = true) (hy : y.isFinite = true) :
    ∃ k : ℤ, (lengthUnit x y).isFinite = true ∧ toRat (lengthUnit x y) = 2 ^ k ∧
      max |toRat x| |toRat y| ≤ 2 ^ (k + 499) ∧ (max |toRat x| |toRat y| ≠ 0 → 2 ^ (k - 499) ≤ max |toRat x| |toRat y|) := by
  have hsmall : smallLength.isFinite = true := by decide +kernel
  have hlarge : largeLength.isFinite = true := by decide +kernel
  obtain ⟨hax, hvx⟩ := toRat_abs hx
  obtain ⟨hay, hvy⟩ := toRat_abs hy
  rw [lengthUnit]
  generalize hsize : (if x.abs < y.abs then y.abs else x.abs) = size
  obtain ⟨hfinite, hvalue⟩ : size.isFinite = true ∧ toRat size = max |toRat x| |toRat y| := by
    rw [← hsize, ← hvx, ← hvy]
    split_ifs with hlt
    · exact ⟨hay, (max_eq_right ((lt_iff hax hay).mp hlt).le).symm⟩
    · exact ⟨hax, (max_eq_left (not_lt.mp fun h => hlt ((lt_iff hax hay).mpr h))).symm⟩
  have hnonneg : 0 ≤ toRat size := hvalue ▸ le_max_of_le_left (abs_nonneg _)
  rw [← hvalue]
  split_ifs with hless hmore
  · obtain ⟨hunit, hpow⟩ := toRat_power_of_two (v := Exact.nearest false 1 (-600)) (k := -600) (by decide +kernel)
    refine ⟨-600, hunit, hpow, ?_, fun hne => ?_⟩
    · exact ((lt_iff hfinite hsmall).mp hless).le.trans
        (toRat_smallLength.2.le.trans (zpow_le_zpow_right₀ one_le_two (by decide)))
    · rw [← abs_of_nonneg hnonneg]
      exact (zpow_le_zpow_right₀ one_le_two (by decide)).trans (Nearest.least_le_abs hfinite hne)
  · obtain ⟨hunit, hpow⟩ := toRat_power_of_two (v := Exact.nearest false 1 600) (k := 600) (by decide +kernel)
    refine ⟨600, hunit, hpow, ?_, fun _ => ?_⟩
    · have hlimit := Nearest.abs_toRat_lt hfinite
      rw [abs_of_nonneg hnonneg] at hlimit
      exact hlimit.le.trans (limit_le.trans (zpow_le_zpow_right₀ one_le_two (by decide)))
    · exact ((zpow_le_zpow_right₀ one_le_two (by decide)).trans toRat_largeLength.1).trans
        ((lt_iff hlarge hfinite).mp hmore).le
  · refine ⟨0, rfl, Nearest.toRat_one, ?_, fun _ => ?_⟩
    · exact (not_lt.mp fun h => hmore ((lt_iff hlarge hfinite).mpr h)).trans toRat_largeLength.2.le
    · exact toRat_smallLength.1.trans (not_lt.mp fun h => hless ((lt_iff hfinite hsmall).mpr h))

structure SquaresOf (a b : Float) : Prop where
  left : Nearest (toRat a * toRat a) (a * a) ∧ (a * a).isFinite = true ∧ 0 ≤ toRat (a * a)
  right : Nearest (toRat b * toRat b) (b * b) ∧ (b * b).isFinite = true ∧ 0 ≤ toRat (b * b)
  sum : Nearest (toRat (a * a) + toRat (b * b)) (a * a + b * b) ∧ (a * a + b * b).isFinite = true ∧
    0 ≤ toRat (a * a + b * b)

private theorem squaresOf {a b : Float} (ha : a.isFinite = true ∧ |toRat a| ≤ 2 ^ (499 : ℤ))
    (hb : b.isFinite = true ∧ |toRat b| ≤ 2 ^ (499 : ℤ)) : SquaresOf a b := by
  have square {v : Float} (hv : v.isFinite = true ∧ |toRat v| ≤ 2 ^ (499 : ℤ)) :
      Nearest (toRat v * toRat v) (v * v) ∧ (v * v).isFinite = true ∧ 0 ≤ toRat (v * v) ∧ |toRat (v * v)| ≤ 2 ^ (998 : ℤ) := by
    have hnear := Nearest.mul hv.1 hv.1
    have hle : |toRat v * toRat v| ≤ 2 ^ (998 : ℤ) := by
      rw [abs_mul, show (998 : ℤ) = 499 + 499 by rfl, zpow_add₀ two_ne_zero]
      exact mul_le_mul hv.2 hv.2 (abs_nonneg _) (by positivity)
    obtain ⟨hfinite, hbound⟩ := hnear.abs_le_pow hle (by decide) (by decide)
    exact ⟨hnear, hfinite, hnear.toRat_nonneg hfinite (mul_self_nonneg _), hbound⟩
  obtain ⟨hnear, hfinite, hnonneg, hbound⟩ := square ha
  obtain ⟨hnear', hfinite', hnonneg', hbound'⟩ := square hb
  have hsum := Nearest.add hfinite hfinite'
  have hle : |toRat (a * a) + toRat (b * b)| ≤ 2 ^ (999 : ℤ) := by
    rw [show (999 : ℤ) = 998 + 1 by rfl, zpow_add₀ two_ne_zero, zpow_one]
    have := abs_add_le (toRat (a * a)) (toRat (b * b))
    linarith
  have hfinite'' := (hsum.abs_le_pow hle (by decide) (by decide)).1
  exact ⟨⟨hnear, hfinite, hnonneg⟩, ⟨hnear', hfinite', hnonneg'⟩, hsum, hfinite'',
    hsum.toRat_nonneg hfinite'' (add_nonneg hnonneg hnonneg')⟩

private theorem SquaresOf.root {a b : Float} (h : SquaresOf a b) :
    (a * a + b * b).sqrt.isFinite = true ∧ 0 ≤ toRat (a * a + b * b).sqrt := by
  obtain ⟨hfinite, -, hge⟩ := sqrt_bounds h.sum.2.1 h.sum.2.2
  exact ⟨hfinite, rounded_zero ▸ hge 0 le_rfl ((zero_pow two_ne_zero).trans_le h.sum.2.2)⟩

/-- What is lost below the least float is small beside a number that is not as small, and beside its square. -/
private theorem tiny_le {m : ℚ} (h : 2 ^ (-499 : ℤ) ≤ m) :
    (2 : ℚ) ^ (-1075 : ℤ) ≤ m / 2 ^ 70 ∧ (2 : ℚ) ^ (-1075 : ℤ) ≤ m ^ 2 / 2 ^ 70 := by
  have hscaled : (2 : ℚ) ^ (-1075 : ℤ) * 2 ^ 70 = 2 ^ (-1005 : ℤ) := by
    rw [← zpow_natCast, ← zpow_add₀ two_ne_zero]
    rfl
  have hsquare : (2 : ℚ) ^ (-998 : ℤ) ≤ m ^ 2 := by
    rw [show (-998 : ℤ) = -499 * 2 by rfl, zpow_mul]
    exact pow_le_pow_left₀ (by positivity) h 2
  rw [le_div_iff₀ (by positivity), le_div_iff₀ (by positivity), hscaled]
  exact ⟨(zpow_le_zpow_right₀ one_le_two (by decide)).trans h, (zpow_le_zpow_right₀ one_le_two (by decide)).trans hsquare⟩

private theorem max_abs_sq_le (c d : ℚ) : max |c| |d| ^ 2 ≤ c ^ 2 + d ^ 2 := by
  obtain h | h := le_total |c| |d|
  · rw [max_eq_right h, sq_abs]
    exact le_add_of_nonneg_left (sq_nonneg _)
  · rw [max_eq_left h, sq_abs]
    exact le_add_of_nonneg_right (sq_nonneg _)

/-- The square of a rounded number is near to that of the exact one, beside that of any larger number that is not tiny. -/
theorem Nearest.sq_error {c m : ℚ} {v : Float} (h : Nearest c v) (hv : v.isFinite = true) (hle : |c| ≤ m)
    (hm : 2 ^ (-499 : ℤ) ≤ m) :
    (1 - 1 / 2 ^ 53) ^ 2 * c ^ 2 - m ^ 2 / 2 ^ 68 ≤ toRat v ^ 2 ∧ toRat v ^ 2 ≤ (1 + 1 / 2 ^ 53) ^ 2 * c ^ 2 + m ^ 2 / 2 ^ 68 := by
  obtain ⟨hlow, hhigh⟩ := h.abs_error hv
  have hsquare := square_error (by positivity) (tiny_le hm).1 (abs_nonneg c) hle (abs_nonneg _) hlow hhigh
  rwa [sq_abs, sq_abs] at hsquare

/-- The root of a sum of squares is as near to the length of the vector as the coordinates that are squared are to those
of the vector. -/
private theorem root_near {c d : ℚ} {a b : Float} (ha : Nearest c a) (hb : Nearest d b) (hfa : a.isFinite = true)
    (hfb : b.isFinite = true) (hge : max |c| |d| ≠ 0 → 2 ^ (-499 : ℤ) ≤ max |c| |d|) (h : SquaresOf a b) {z : ℚ} (hz : 0 ≤ z) :
    (c ^ 2 + d ^ 2 ≤ z ^ 2 → toRat (a * a + b * b).sqrt ≤ (1 + 5 / 2 ^ 53) * z) ∧
      (z ^ 2 ≤ c ^ 2 + d ^ 2 → (1 - 5 / 2 ^ 53) * z ≤ toRat (a * a + b * b).sqrt) := by
  obtain ⟨⟨hp, hfp, hpnonneg⟩, ⟨hq, hfq, hqnonneg⟩, hs, hfs, hsnonneg⟩ := h
  obtain ⟨hfinite, hroot, hroot'⟩ := sqrt_bounds hfs hsnonneg
  obtain hzero | hne := eq_or_ne (max |c| |d|) 0
  · obtain rfl : c = 0 := abs_nonpos_iff.mp (hzero ▸ le_max_left _ _)
    obtain rfl : d = 0 := abs_nonpos_iff.mp (hzero ▸ le_max_right _ _)
    rw [ha.toRat_of_zero hfa, mul_zero] at hp
    rw [hb.toRat_of_zero hfb, mul_zero] at hq
    rw [hp.toRat_of_zero hfp, hq.toRat_of_zero hfq, add_zero] at hs
    rw [hs.toRat_of_zero hfs] at hroot hroot'
    have hle := hroot 0 le_rfl (sq_nonneg 0)
    have hge := hroot' 0 le_rfl (zero_pow two_ne_zero).le
    rw [rounded_zero] at hle hge
    refine ⟨fun _ => hle.trans (by positivity), fun hsq => ?_⟩
    obtain rfl : z = 0 := pow_eq_zero_iff two_ne_zero |>.mp (le_antisymm (by linarith) (sq_nonneg z))
    rwa [mul_zero]
  · have hA := ha.sq_error hfa (le_max_left |c| |d|) (hge hne)
    have hB := hb.sq_error hfb (le_max_right |c| |d|) (hge hne)
    have hP := hp.abs_error hfp
    have hQ := hq.abs_error hfq
    have hS := hs.abs_error hfs
    rw [abs_mul_self, abs_of_nonneg hpnonneg, ← sq] at hP
    rw [abs_mul_self, abs_of_nonneg hqnonneg, ← sq] at hQ
    rw [abs_of_nonneg (add_nonneg hpnonneg hqnonneg), abs_of_nonneg hsnonneg] at hS
    have hround (z : ℚ) (hz : 0 ≤ z) := abs_le.mp (rounded_error hz)
    obtain ⟨hη, hη'⟩ := tiny_le (hge hne)
    have hpos : (0 : ℚ) ≤ 2 ^ (-1075 : ℤ) := by positivity
    generalize (2 : ℚ) ^ (-1075 : ℤ) = η at *
    have hm : 0 < max |c| |d| := lt_of_le_of_ne (le_max_of_le_left (abs_nonneg c)) hne.symm
    have hN := max_abs_sq_le c d
    have hsquares := squares_error hpos hη' hN hA hB hP hQ hS
    refine root_error hη hm hN hsquares.1 hsquares.2 (fun z hz hle => ?_) (fun z hz hle => ?_) hz
    · have := hroot z hz hle
      have := hround z hz
      linarith
    · have := hroot' z hz hle
      have := hround z hz
      linarith

private theorem isInf_of_isFinite {v : Float} (hv : v.isFinite = true) : v.isInf = false := by
  rw [Finite.isFinite_eq] at hv
  change v.toModel.unpack.isInf = false
  cases hu : v.toModel.unpack <;> rw [hu] at hv <;> first | rfl | cases hv

/-- The two factors of the hypotenuse of finite coordinates: a root, and the power of two by which the vector was scaled. Their
product is as near to the length of the vector as the root is to that of the scaled one. -/
theorem hypot_factors {x y : Float} (hx : x.isFinite = true) (hy : y.isFinite = true) :
    ∃ root unit, hypot x y = root * unit ∧ (root.isFinite = true ∧ 0 ≤ toRat root) ∧ (unit.isFinite = true ∧ 0 < toRat unit) ∧
      ∀ z, 0 ≤ z → (toRat x ^ 2 + toRat y ^ 2 ≤ z ^ 2 → toRat root * toRat unit ≤ (1 + 5 / 2 ^ 53) * z) ∧
        (z ^ 2 ≤ toRat x ^ 2 + toRat y ^ 2 → (1 - 5 / 2 ^ 53) * z ≤ toRat root * toRat unit) := by
  obtain ⟨k, hunit, hpow, hlarge, hsmall⟩ := lengthUnit_spec hx hy
  have hpos : (0 : ℚ) < 2 ^ k := by positivity
  have hdiv {v : Float} (hv : v.isFinite = true) : Nearest (toRat v / 2 ^ k) (v / lengthUnit x y) :=
    hpow ▸ Nearest.div hv hunit (hpow ▸ hpos.ne')
  have hmax : max |toRat x / 2 ^ k| |toRat y / 2 ^ k| = max |toRat x| |toRat y| / 2 ^ k := by
    rw [abs_div, abs_div, abs_of_pos hpos, max_div_div_right hpos.le]
  have hle : max |toRat x / 2 ^ k| |toRat y / 2 ^ k| ≤ 2 ^ (499 : ℤ) := by
    rw [hmax, div_le_iff₀ hpos, ← zpow_add₀ two_ne_zero, add_comm]
    exact hlarge
  have hge : max |toRat x / 2 ^ k| |toRat y / 2 ^ k| ≠ 0 → 2 ^ (-499 : ℤ) ≤ max |toRat x / 2 ^ k| |toRat y / 2 ^ k| := by
    rw [hmax, le_div_iff₀ hpos, ← zpow_add₀ two_ne_zero, neg_add_eq_sub]
    exact fun hne => hsmall fun hzero => hne (by rw [hzero, zero_div])
  have ha := (hdiv hx).abs_le_pow ((le_max_left _ _).trans hle) (by decide) (by decide)
  have hb := (hdiv hy).abs_le_pow ((le_max_right _ _).trans hle) (by decide) (by decide)
  have hsquares := squaresOf ha hb
  refine ⟨_, lengthUnit x y, ?_, hsquares.root, ⟨hunit, hpow ▸ hpos⟩, fun z hz => ?_⟩
  · rw [hypot_eq, isInf_of_isFinite hx, isInf_of_isFinite hy, Bool.or_self, if_neg Bool.false_ne_true]
  · have hnear := root_near (hdiv hx) (hdiv hy) ha.1 hb.1 hge hsquares (z := z / 2 ^ k) (by positivity)
    rw [div_pow, div_pow, div_pow, ← add_div, div_le_div_iff_of_pos_right (by positivity),
      div_le_div_iff_of_pos_right (by positivity), mul_div_assoc', mul_div_assoc', le_div_iff₀ hpos, div_le_iff₀ hpos] at hnear
    rw [hpow]
    exact hnear

private theorem isInf_of_not_isFinite {v : Float} (hv : v.isFinite = false) (hn : v.isNaN = false) : v.isInf = true := by
  rw [Finite.isFinite_eq] at hv
  rw [Finite.isNaN_eq] at hn
  change v.toModel.unpack.isInf = true
  generalize v.toModel.unpack = u at hv hn ⊢
  cases u with
  | infinity s => rfl
  | notANumber => cases hn
  | _ => cases hv

/-- The hypotenuse is infinite if one of two numbers is. -/
theorem hypot_of_not_isFinite {x y : Float} (hx : x.isNaN = false) (hy : y.isNaN = false)
    (h : ¬ (x.isFinite = true ∧ y.isFinite = true)) : hypot x y = infinity := by
  have hinf : (x.isInf || y.isInf) = true := by
    rw [Bool.or_eq_true]
    by_contra hnone
    rw [not_or] at hnone
    refine h ⟨?_, ?_⟩
    · by_contra hinf
      exact hnone.1 (isInf_of_not_isFinite (Bool.not_eq_true _ ▸ hinf) hx)
    · by_contra hinf
      exact hnone.2 (isInf_of_not_isFinite (Bool.not_eq_true _ ▸ hinf) hy)
  rw [hypot_eq, hinf, if_pos rfl]

/-- The hypotenuse of two numbers is not negative, and not without a value. -/
theorem zero_le_hypot {x y : Float} (hx : x.isNaN = false) (hy : y.isNaN = false) : 0 ≤ hypot x y := by
  by_cases hfinite : x.isFinite = true ∧ y.isFinite = true
  · obtain ⟨root, unit, heq, ⟨hroot, hroot'⟩, ⟨hunit, hunit'⟩, -⟩ := hypot_factors hfinite.1 hfinite.2
    rw [heq]
    exact zero_le_mul hroot hunit hroot' hunit'.le
  · rw [hypot_of_not_isFinite hx hy hfinite]
    exact zero_le_infinity

private theorem Finite.of_sqrt {v : Float} (h : v.sqrt.isFinite = true) : v.isFinite = true := by
  rw [isFinite_eq, sqrt_unpack] at h
  rw [isFinite_eq]
  generalize v.toModel.unpack = u at h ⊢
  cases u with
  | infinity s => cases s <;> cases h
  | notANumber => cases h
  | _ => rfl

private theorem Finite.of_hypot {x y : Float} (h : (hypot x y).isFinite = true) : x.isFinite = true ∧ y.isFinite = true := by
  rw [hypot_eq] at h
  split at h
  · cases h
  · obtain ⟨hx, hy⟩ := of_add (of_sqrt (of_mul h).1)
    exact ⟨of_div (of_mul hx).1, of_div (of_mul hy).1⟩

theorem zero_le_toRat_hypot {x y : Float} (h : (hypot x y).isFinite = true) : 0 ≤ toRat (hypot x y) := by
  obtain ⟨hx, hy⟩ := Finite.of_hypot h
  exact (zero_le_iff h).mp (zero_le_hypot (Finite.isNaN_of_isFinite hx) (Finite.isNaN_of_isFinite hy))

/-- The hypotenuse is finite if the exact length of the vector is below the range of floats by a small part of it. -/
theorem hypot_isFinite {x y : Float} (hx : x.isFinite = true) (hy : y.isFinite = true)
    (h : toRat x ^ 2 + toRat y ^ 2 ≤ ((1 - 6 / 2 ^ 53) * beyond) ^ 2) : (hypot x y).isFinite = true := by
  obtain ⟨root, unit, heq, ⟨hroot, hroot'⟩, ⟨hunit, hunit'⟩, hbound⟩ := hypot_factors hx hy
  have hpos := beyond_pos
  have hle := (hbound _ (mul_nonneg (by norm_num) hpos.le)).1 h
  rw [heq, (Nearest.mul hroot hunit).isFinite_iff_lt, abs_of_nonneg (mul_nonneg hroot' hunit'.le), limit_eq_beyond]
  linarith

/-- The hypotenuse is infinite if the exact length of the vector is above the range of floats by a small part of it. -/
theorem hypot_not_isFinite {x y : Float} (hx : x.isFinite = true) (hy : y.isFinite = true)
    (h : ((1 + 6 / 2 ^ 53) * beyond) ^ 2 ≤ toRat x ^ 2 + toRat y ^ 2) : (hypot x y).isFinite = false := by
  obtain ⟨root, unit, heq, ⟨hroot, hroot'⟩, ⟨hunit, hunit'⟩, hbound⟩ := hypot_factors hx hy
  have hpos := beyond_pos
  have hle := (hbound _ (mul_nonneg (by norm_num) hpos.le)).2 h
  rw [← Bool.not_eq_true, heq, (Nearest.mul hroot hunit).isFinite_iff_lt, abs_of_nonneg (mul_nonneg hroot' hunit'.le),
    limit_eq_beyond]
  linarith

end WireCut
