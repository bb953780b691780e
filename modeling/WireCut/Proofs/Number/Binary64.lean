import Mathlib
import WireCut.Number.Exact

/-! Binary floats as significands and exponents. Every result of rounding is in the one form that packing keeps,
and its exponent is next to that of the exact value. -/
namespace WireCut

namespace Binary64
open Float.Model UnpackedFloat

/-- The exponent at which a product `m·2^e` keeps all the bits that a float has for it. -/
def target (m : Nat) (e : Int) : Int :=
  max (m.log2 + e - 52) (-1074)

theorem targetExponent_eq (m : Nat) (e : Int) :
    Format.binary64.targetExponent (totalExponent m e) = target m e := by
  have hmin : Format.binary64.minExponent = -1074 := by decide
  have hbits : Format.binary64.mantissaBits = 53 := by decide
  rw [Format.targetExponent, totalExponent, hmin, hbits, target]
  omega

/-- The form of every float that is read or rounded: a significand of 53 bits, or fewer with the least exponent. -/
def Rounded : UnpackedFloat → Prop
  | .finite _ m e _ => e = target m e
  | _ => True

theorem Rounded.bits {s : Sign} {m : Nat} {e : Int} {h : 0 < m} (hr : Rounded (.finite s m e h)) :
    m < 2 ^ 53 ∧ -1074 ≤ e ∧ (m.log2 = 52 ∨ e = -1074) := by
  have he : e = max (m.log2 + e - 52) (-1074) := hr
  have hlog : m.log2 < 53 := by omega
  exact ⟨(Nat.log2_lt (by omega)).mp hlog, by omega, by omega⟩

private theorem toNat_implicit (m : Nat) (hlog : m.log2 = 52) (hpos : 0 < m) :
    (1#1 ++ BitVec.ofNat 52 m).toNat = m := by
  obtain ⟨hlow, hhigh⟩ := (Nat.log2_eq_iff (by omega)).mp hlog
  rw [BitVec.toNat_append, BitVec.toNat_ofNat, BitVec.toNat_ofNat, ← Nat.shiftLeft_add_eq_or_of_lt (Nat.mod_lt _ (by decide)),
    Nat.shiftLeft_eq]
  omega

private theorem exponent_ne_ones {k : Nat} (hk : k < 2047) : BitVec.ofNat 11 k ≠ -1#11 := by
  have hones : (-1#11).toNat = 2047 := by decide
  rw [ne_eq, ← BitVec.toNat_inj, BitVec.toNat_ofNat, Nat.mod_eq_of_lt (by omega), hones]
  omega

private theorem unpack_normal (s : Sign) (k m : Nat) (hm : 0 < m) (hpos : 0 < k) (hk : k < 2047)
    (hlog : m.log2 = 52) :
    UnpackedFloat.unpack Format.binary64
      (packComponents Format.binary64 s (BitVec.ofNat 11 k) (BitVec.ofNat 52 m)) = .finite s m (k - 1075) hm := by
  have hzero : BitVec.ofNat 11 k ≠ 0#11 := by
    rw [ne_eq, ← BitVec.toNat_inj, BitVec.toNat_ofNat, Nat.mod_eq_of_lt (by omega)]
    exact Nat.ne_of_gt hpos
  have hbias : (Format.binary64.exponentBias : Int) = 1023 := by decide
  rw [UnpackedFloat.unpack]
  simp only [unpackExponent_packComponents, unpackMantissa_packComponents, unpackSign_packComponents, Sign.ofBitVec_toBitVec,
    exponent_ne_ones hk, hzero, if_false, toNat_implicit m hlog hm, hbias]
  congr 1
  rw [BitVec.toNat_ofNat, Nat.mod_eq_of_lt (by omega)]
  omega

private theorem unpack_subnormal (s : Sign) (m : Nat) (hm : 0 < m) (hsmall : m < 2 ^ 52) :
    UnpackedFloat.unpack Format.binary64
      (packComponents Format.binary64 s 0#11 (BitVec.ofNat 52 m)) = .finite s m (-1074) hm := by
  have hnat : (BitVec.ofNat 52 m).toNat = m := by
    rw [BitVec.toNat_ofNat, Nat.mod_eq_of_lt hsmall]
  have hmant : BitVec.ofNat 52 m ≠ 0#52 := by
    rw [ne_eq, ← BitVec.toNat_inj, hnat]
    exact Nat.ne_of_gt hm
  rw [UnpackedFloat.unpack]
  simp only [unpackExponent_packComponents, unpackMantissa_packComponents, unpackSign_packComponents, Sign.ofBitVec_toBitVec,
    exponent_ne_ones (show 0 < 2047 by decide), hmant, if_false, if_true, dif_neg, not_false_iff, hnat]
  rfl

/-- A float after it has been put into its sixty-four bits. -/
def fit : UnpackedFloat → UnpackedFloat
  | .finite s m e h => if 972 ≤ e then .infinity s else .finite s m e h
  | u => u

/-- Packing keeps a rounded number, unless its exponent is too large. -/
theorem unpack_pack (u : UnpackedFloat) (h : Rounded u) : (Float.Model.pack u).unpack = fit u := by
  simp only [Float.Model.unpack, Float.Model.pack, UInt64.toBitVec_ofBitVec]
  cases u with
  | infinity s =>
    simp [UnpackedFloat.pack, packedInfinity, UnpackedFloat.unpack, fit]
  | notANumber =>
    simp [UnpackedFloat.pack, fit]
  | zero s =>
    simp [UnpackedFloat.pack, fit]
  | finite s m e hm =>
    obtain ⟨hbits, hleast, hnormal⟩ := h.bits
    have hbias : (Format.binary64.exponentBias : Int) = 1023 := by decide
    have hwidth : Format.binary64.mantissaBits = 53 := by decide
    simp only [UnpackedFloat.pack, hbias, hwidth, fit]
    by_cases hbig : 972 ≤ e
    · rw [if_pos (by omega), if_pos hbig]
      simp [packedInfinity, UnpackedFloat.unpack]
    · rw [if_neg (by omega), if_neg hbig]
      by_cases hlog : m.log2 = 52
      · rw [if_pos (by omega)]
        refine (unpack_normal s _ m hm (by omega) (by omega) hlog).trans ?_
        congr 1
        omega
      · rw [if_neg (by omega)]
        have hsmall : m < 2 ^ 52 := by
          have : m.log2 < 53 := (Nat.log2_lt (by omega)).mpr hbits
          exact (Nat.log2_lt (by omega)).mp (by omega)
        refine (unpack_subnormal s m hm hsmall).trans ?_
        congr 1
        omega

/-- A mantissa with its implicit bit. -/
private theorem log2_implicit (x : BitVec 52) : (1#1 ++ x).toNat = 2 ^ 52 + x.toNat ∧ (1#1 ++ x).toNat.log2 = 52 := by
  have hx := x.isLt
  have hnat : (1#1 ++ x).toNat = 2 ^ 52 + x.toNat := by
    rw [BitVec.toNat_append, ← Nat.shiftLeft_add_eq_or_of_lt hx]
    rfl
  rw [hnat]
  exact ⟨rfl, (Nat.log2_eq_iff (by omega)).mpr ⟨by omega, by omega⟩⟩

/-- A finite float is rounded, and its exponent is not too large. -/
theorem of_unpack_eq {v : Float.Model} {s : Sign} {m : Nat} {e : Int} {h : 0 < m}
    (heq : v.unpack = .finite s m e h) : e = target m e ∧ e ≤ 971 := by
  rw [Float.Model.unpack] at heq
  generalize v.toBits.toBitVec = b at heq
  have hbias : (Format.binary64.exponentBias : Int) = 1023 := by decide
  have hm : (@unpackMantissa Format.binary64 b).toNat < 2 ^ 52 := BitVec.isLt _
  have hk : (@unpackExponent Format.binary64 b).toNat < 2 ^ 11 := BitVec.isLt _
  rw [UnpackedFloat.unpack] at heq
  dsimp only at heq
  split at heq
  · split at heq <;> cases heq
  · rename_i hones
    split at heq
    · rename_i hzero
      split at heq
      · cases heq
      · -- a subnormal float has the least exponent
        rename_i hmant
        cases heq
        rw [hzero, hbias, target]
        have hlog := (Nat.log2_lt (Nat.ne_of_gt h)).mpr hm
        simp only [BitVec.toNat_ofNat, Nat.zero_mod]
        omega
    · -- a normal float has all its bits
      rename_i hzero
      have hne : (@unpackExponent Format.binary64 b).toNat ≠ 2047 := fun hc => hones (BitVec.eq_of_toNat_eq hc)
      have hpos : (@unpackExponent Format.binary64 b).toNat ≠ 0 := fun hc => hzero (BitVec.eq_of_toNat_eq hc)
      have hlog := (log2_implicit (@unpackMantissa Format.binary64 b)).2
      cases heq
      rw [target, hlog, hbias]
      omega

theorem rounded_unpack (v : Float.Model) : Rounded v.unpack := by
  cases hv : v.unpack with
  | finite s m e h => exact (of_unpack_eq hv).1
  | _ => trivial

private theorem toBitVec_ofBitVec (b : BitVec 1) : (Sign.ofBitVec b).toBitVec = b := by
  obtain rfl | rfl := b.eq_zero_or_eq_one <;> rfl

private theorem packComponents_unpack {spec : Format} (b : BitVec spec.numBits) :
    packComponents spec (Sign.ofBitVec (unpackSign b)) (unpackExponent b) (unpackMantissa b) = b := by
  have hm := spec.hm
  have he := spec.he
  rw [packComponents, toBitVec_ofBitVec]
  ext i hi
  rw [← BitVec.getLsbD_eq_getElem (x := b)]
  simp only [unpackSign, unpackExponent, unpackMantissa, BitVec.getElem_append, BitVec.getElem_cast, BitVec.getElem_extract]
  split
  · rw [Nat.zero_add]
  · split <;> congr 1 <;> omega

/-- What is read from the bits of a float is put into the same bits. -/
private theorem pack_unpack_bits {b : BitVec 64} (h : Format.binary64.Valid b) :
    UnpackedFloat.pack Format.binary64 (UnpackedFloat.unpack Format.binary64 b) = b := by
  have hbias : (Format.binary64.exponentBias : Int) = 1023 := by decide
  have hparts := @packComponents_unpack Format.binary64 b
  have hm : (@unpackMantissa Format.binary64 b).toNat < 2 ^ 52 := BitVec.isLt _
  have hk : (@unpackExponent Format.binary64 b).toNat < 2 ^ 11 := BitVec.isLt _
  have hwidth : Format.binary64.mantissaBits = 53 := by decide
  rw [UnpackedFloat.unpack]
  dsimp only
  split
  · rename_i hones
    split
    · rename_i hzero
      rw [hones, hzero] at hparts
      exact hparts
    · rename_i hnan
      exact (h.eq_packedNaN hones hnan).symm
  · rename_i hones
    split
    · rename_i hzero
      rw [hzero] at hparts ⊢
      split
      · rename_i hmant
        rw [hmant] at hparts
        exact hparts
      · -- a subnormal float has no implicit bit
        rename_i hmant
        have hpos : (@unpackMantissa Format.binary64 b).toNat ≠ 0 := fun hc => hmant (BitVec.eq_of_toNat_eq hc)
        have hlog := (Nat.log2_lt hpos).mpr hm
        simp only [UnpackedFloat.pack, hbias, hwidth, BitVec.toNat_ofNat]
        rw [if_neg (by decide), if_neg (by omega), BitVec.ofNat_toNat, BitVec.setWidth_eq]
        exact hparts
    · -- the implicit bit of a normal float is dropped
      have hne : (@unpackExponent Format.binary64 b).toNat ≠ 2047 := fun hc => hones (BitVec.eq_of_toNat_eq hc)
      obtain ⟨hnat, hlog⟩ := log2_implicit (@unpackMantissa Format.binary64 b)
      have hmant : BitVec.ofNat 52 (1#1 ++ @unpackMantissa Format.binary64 b).toNat = @unpackMantissa Format.binary64 b := by
        rw [hnat, ← BitVec.toNat_inj, BitVec.toNat_ofNat, Nat.add_mod_left, Nat.mod_eq_of_lt hm]
      have hexp : ((@unpackExponent Format.binary64 b).toNat - (1023 + (52 : ℕ)) + 1023 + (52 : ℕ) : ℤ).toNat =
          (@unpackExponent Format.binary64 b).toNat := by omega
      simp only [UnpackedFloat.pack, hbias, hwidth, hlog]
      rw [hexp, if_neg (show ¬ 2048 ≤ _ by omega), if_pos trivial, BitVec.ofNat_toNat, BitVec.setWidth_eq, hmant]
      exact hparts

theorem pack_unpack (v : Float.Model) : Float.Model.pack v.unpack = v := by
  have hbits : UnpackedFloat.pack Format.binary64 v.unpack = v.toBits.toBitVec := pack_unpack_bits v.valid
  cases v
  simp only [Float.Model.pack, hbits, UInt64.ofBitVec_toBitVec]

theorem shiftRight_mantissa (em : ExtendedMantissa) (k : Nat) :
    (em >>> k).mantissa = em.mantissa / 2 ^ k := by
  change (k.repeat ExtendedMantissa.shiftRightOne em).mantissa = _
  induction k with
  | zero => simp [Nat.repeat]
  | succ k ih =>
    rw [Nat.repeat, Nat.pow_succ, ← Nat.div_div_eq_div_mul, ← ih]
    rfl

theorem roundedMantissa_bounds (em : ExtendedMantissa) :
    em.mantissa ≤ em.roundedMantissa ∧ em.roundedMantissa ≤ em.mantissa + 1 := by
  rcases em with ⟨m, r, s⟩
  cases r <;> cases s <;>
    simp only [ExtendedMantissa.roundedMantissa, ExtendedMantissa.accuracy, Accuracy.roundToNearestEven] <;> omega

theorem ofMantissaAndAccuracy_mantissa (m : Nat) (a : Accuracy) :
    (ExtendedMantissa.ofMantissaAndAccuracy m a).mantissa = m := by
  cases a with
  | exact => rfl
  | inexact order => cases order <;> rfl

/-- A significand is cut off to 53 bits, or to fewer at the least exponent. -/
theorem cut_bits (m : Nat) (e : Int) (he : e ≤ target m e) :
    m / 2 ^ (target m e - e).toNat < 2 ^ 53 ∧
      (-1074 < target m e → 2 ^ 52 ≤ m / 2 ^ (target m e - e).toNat) := by
  have hdef : target m e = max (m.log2 + e - 52) (-1074) := rfl
  generalize hk : (target m e - e).toNat = k
  constructor
  · have hlog : m.log2 < 53 + k := by omega
    rw [Nat.div_lt_iff_lt_mul (Nat.two_pow_pos k), ← Nat.pow_add]
    by_cases hm : m = 0
    · rw [hm]
      exact Nat.two_pow_pos _
    · exact (Nat.log2_lt hm).mp hlog
  · intro hbig
    have hlog : 52 + k ≤ m.log2 := by omega
    have hm : m ≠ 0 := by
      rintro rfl
      simp at hlog
    rw [Nat.le_div_iff_mul_le (Nat.two_pow_pos k), ← Nat.pow_add]
    exact (Nat.le_log2 hm).mp hlog

theorem shiftToTargetExponent_eq (m : Nat) (e : Int) (a : Accuracy) (he : e ≤ target m e) :
    shiftToTargetExponent Format.binary64 m e a =
      (ExtendedMantissa.ofMantissaAndAccuracy m a >>> (target m e - e).toNat, target m e) := by
  rw [shiftToTargetExponent, targetExponent_eq, shiftToExponent]
  congr 1
  omega

def signedProduct (s : Sign) (m : Nat) (e : Int) : UnpackedFloat :=
  if h : m = 0 then .zero s else .finite s m e (Nat.pos_of_ne_zero h)

theorem roundWithAccuracy_eq (s : Sign) (m : Nat) (e : Int) (a : Accuracy) :
    roundWithAccuracy Format.binary64 s m e a =
      let first := shiftToTargetExponent Format.binary64 m e a
      let second := shiftToTargetExponent Format.binary64 first.1.roundedMantissa first.2 .exact
      signedProduct s second.1.mantissa second.2 := rfl

/-- The significand after both shifts, and its exponent. The second shift drops no bit that is set. -/
theorem second_shift {r : Nat} {t : Int} (hr : r ≤ 2 ^ 53) (ht : -1074 ≤ t)
    (hlow : -1074 < t → 2 ^ 52 ≤ r) :
    ∃ M E, (shiftToTargetExponent Format.binary64 r t .exact).1.mantissa = M ∧
      (shiftToTargetExponent Format.binary64 r t .exact).2 = E ∧ t ≤ E ∧ E ≤ t + 1 ∧
      (0 < M → E = target M E) ∧ M * 2 ^ (E - t).toNat = r := by
  have hdef : target r t = max (r.log2 + t - 52) (-1074) := rfl
  obtain hlt | rfl := Nat.lt_or_eq_of_le hr
  · -- nothing is shifted
    have hlog : r = 0 ∧ r.log2 = 0 ∨ r ≠ 0 ∧ r.log2 < 53 := by
      by_cases hzero : r = 0
      · exact .inl ⟨hzero, by rw [hzero, Nat.log2_zero]⟩
      · exact .inr ⟨hzero, (Nat.log2_lt hzero).mpr hlt⟩
    rw [shiftToTargetExponent, targetExponent_eq, shiftToExponent]
    have hshift : (target r t - t).toNat = 0 := by omega
    refine ⟨r, t, ?_, ?_, by omega, by omega, fun hpos => ?_, by simp⟩
    · rw [hshift, shiftRight_mantissa, ofMantissaAndAccuracy_mantissa, Nat.pow_zero, Nat.div_one]
    · simp only [hshift]
      omega
    · by_cases hbig : -1074 < t
      · have : 52 ≤ r.log2 := (Nat.le_log2 (by omega)).mpr (hlow hbig)
        omega
      · omega
  · -- rounding has carried into a new bit
    rw [Nat.log2_two_pow] at hdef
    have htarget : target (2 ^ 53) t = t + 1 := by omega
    rw [shiftToTargetExponent_eq _ _ _ (by omega), htarget, shiftRight_mantissa, ofMantissaAndAccuracy_mantissa,
      show (t + 1 - t).toNat = 1 by omega]
    refine ⟨2 ^ 52, t + 1, by decide, rfl, by omega, by omega, fun _ => ?_, ?_⟩
    · rw [target, Nat.log2_two_pow]
      omega
    · rw [show (t + 1 - t).toNat = 1 by omega]
      decide

/-- What rounding a product can come to: zero, if the product is below all floats, or a product whose exponent is
the target exponent or right above it. -/
inductive Rounding (s : Sign) (m : Nat) (e : Int) : UnpackedFloat → Prop where
  | zero (small : m ≠ 0 → m.log2 + e < -1074) : Rounding s m e (.zero s)
  | finite (M : Nat) (E : Int) (h : 0 < M) (rounded : E = target M E) (low : target m e ≤ E)
      (high : E ≤ target m e + 1) : Rounding s m e (.finite s M E h)

theorem Rounding.rounded {s : Sign} {m : Nat} {e : Int} {u : UnpackedFloat} (h : Rounding s m e u) : Rounded u := by
  cases h with
  | zero => trivial
  | finite M E h rounded => exact rounded

theorem rounding_roundWithAccuracy (s : Sign) (m : Nat) (e : Int) (a : Accuracy) (he : e ≤ target m e) :
    Rounding s m e (roundWithAccuracy Format.binary64 s m e a) := by
  obtain ⟨hcut, hfull⟩ := cut_bits m e he
  have hleast : -1074 ≤ target m e := Int.le_max_right _ _
  rw [roundWithAccuracy_eq, shiftToTargetExponent_eq m e a he]
  generalize hem : ExtendedMantissa.ofMantissaAndAccuracy m a >>> (target m e - e).toNat = em
  have hmant : em.mantissa = m / 2 ^ (target m e - e).toNat := by
    rw [← hem, shiftRight_mantissa, ofMantissaAndAccuracy_mantissa]
  obtain ⟨hle, hge⟩ := roundedMantissa_bounds em
  rw [hmant] at hle hge
  have hlow (h : -1074 < target m e) : 2 ^ 52 ≤ em.roundedMantissa := Nat.le_trans (hfull h) hle
  obtain ⟨M, E, hM, hE, hlower, hupper, hrounded, hkept⟩ := second_shift (by omega) hleast hlow
  simp only [hM, hE, signedProduct]
  by_cases hz : M = 0
  · rw [dif_pos hz]
    refine .zero fun hm => ?_
    have hr : em.roundedMantissa = 0 := by rw [← hkept, hz, Nat.zero_mul]
    have hsmall : m < 2 ^ (target m e - e).toNat := by
      rw [← Nat.div_eq_zero_iff_lt (Nat.two_pow_pos _)]
      omega
    have hlog := (Nat.log2_lt hm).mpr hsmall
    have hleast : ¬ -1074 < target m e := fun h => by have := hlow h; omega
    omega
  · rw [dif_neg hz]
    exact .finite M E _ (hrounded (Nat.pos_of_ne_zero hz)) hlower hupper

theorem log2_shiftLeft {m : Nat} (k : Nat) (hm : m ≠ 0) : (m <<< k).log2 = m.log2 + k := by
  obtain ⟨hlow, hhigh⟩ := (Nat.log2_eq_iff hm).mp rfl
  have hpos : 0 < 2 ^ k := Nat.two_pow_pos k
  rw [Nat.shiftLeft_eq, Nat.log2_eq_iff (Nat.mul_ne_zero hm (Nat.ne_of_gt hpos))]
  rw [show m.log2 + k + 1 = (m.log2 + 1) + k by omega, Nat.pow_add, Nat.pow_add _ (m.log2 + 1)]
  exact ⟨Nat.mul_le_mul_right _ hlow, Nat.mul_lt_mul_of_pos_right hhigh hpos⟩

theorem decreaseExponent_target {m : Nat} (e : Int) (hm : m ≠ 0) :
    ∃ k : Nat, decreaseExponent m e (target m e) = (m <<< k, e - k) ∧ m <<< k ≠ 0 ∧
      (m <<< k).log2 + (e - k) = m.log2 + e ∧ e - k ≤ target (m <<< k) (e - k) := by
  generalize hk : (e - target m e).toNat = k
  have hlog : (m <<< k).log2 = m.log2 + k := by
    exact log2_shiftLeft k hm
  refine ⟨k, by rw [decreaseExponent, hk], ?_, by omega, ?_⟩
  · rw [Nat.shiftLeft_eq]
    exact Nat.mul_ne_zero hm (Nat.ne_of_gt (Nat.two_pow_pos k))
  · rw [target] at hk ⊢
    omega

theorem round_zero (s : Sign) (e : Int) : UnpackedFloat.round Format.binary64 s 0 e = .zero s := by
  have hshift (k : Nat) : (⟨0, false, false⟩ : ExtendedMantissa) >>> k = ⟨0, false, false⟩ := by
    change k.repeat ExtendedMantissa.shiftRightOne ⟨0, false, false⟩ = _
    induction k with
    | zero => rfl
    | succ k ih => rw [Nat.repeat, ih]; rfl
  have hround : (⟨0, false, false⟩ : ExtendedMantissa).roundedMantissa = 0 := rfl
  simp only [UnpackedFloat.round, decreaseExponent, Nat.zero_shiftLeft, roundWithAccuracy_eq, shiftToTargetExponent,
    shiftToExponent, ExtendedMantissa.ofMantissaAndAccuracy, hshift, hround, signedProduct, dif_pos]

theorem rounding_round (s : Sign) (m : Nat) (e : Int) :
    Rounding s m e (UnpackedFloat.round Format.binary64 s m e) := by
  by_cases hm : m = 0
  · rw [hm, round_zero]
    exact .zero fun h => absurd rfl h
  · obtain ⟨k, heq, hn, hlog, hf⟩ := decreaseExponent_target e hm
    have htarget : target (m <<< k) (e - k) = target m e := by rw [target, target, hlog]
    simp only [UnpackedFloat.round, targetExponent_eq, heq]
    have hround := rounding_roundWithAccuracy s (m <<< k) (e - k) .exact hf
    generalize roundWithAccuracy Format.binary64 s (m <<< k) (e - k) .exact = u at hround ⊢
    cases hround with
    | zero small => exact .zero fun _ => hlog ▸ small hn
    | finite M E h rounded low high => exact .finite M E h rounded (htarget ▸ low) (htarget ▸ high)

theorem rounded_normalize (m : Int) (e : Int) (s : Sign) : Rounded (UnpackedFloat.normalize Format.binary64 m e s) := by
  rw [UnpackedFloat.normalize]
  split
  · exact (rounding_round _ _ _).rounded
  · trivial
  · exact (rounding_round _ _ _).rounded

end Binary64

end WireCut
