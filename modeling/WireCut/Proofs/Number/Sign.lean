import WireCut.Proofs.Number.Scientific

/-! Signs of floats. Rounding keeps the sign, also where it gives a zero or an infinity. -/
namespace WireCut

open Float.Model UnpackedFloat Binary64

namespace Binary64

inductive Signed (s : Sign) : UnpackedFloat → Prop where
  | infinity : Signed s (.infinity s)
  | zero : Signed s (.zero s)
  | finite (m : ℕ) (e : ℤ) (h : 0 < m) : Signed s (.finite s m e h)

theorem Rounding.signed {s : Sign} {m : ℕ} {e : ℤ} {u : UnpackedFloat} (h : Rounding s m e u) : Signed s u := by
  cases h with
  | zero => exact .zero
  | finite M E hM => exact .finite M E hM

namespace Signed
variable {s t : Sign} {u a b : UnpackedFloat}

private theorem neg (h : Signed s u) : Signed (-s) u.neg := by
  cases h with
  | infinity => exact .infinity
  | zero => exact .zero
  | finite m e hm => exact .finite m e hm

theorem fit (h : Signed s u) : Signed s (fit u) := by
  cases h with
  | infinity => exact .infinity
  | zero => exact .zero
  | finite m e hm =>
    rw [Binary64.fit]
    split
    · exact .infinity
    · exact .finite m e hm

/-- Packing keeps the sign of what is rounded. -/
private theorem pack (h : Signed s u) (hu : Rounded u) : Signed s (Float.Model.pack u).unpack := by
  rw [unpack_pack u hu]
  exact h.fit

private theorem pack_rounding {m : ℕ} {e : ℤ} (h : Rounding s m e u) : Signed s (Float.Model.pack u).unpack :=
  h.signed.pack h.rounded

theorem mul (ha : Signed s a) (hb : Signed t b) (hra : Rounded a) (hrb : Rounded b) (hfa : a.isFinite = true)
    (hfb : b.isFinite = true) :
    Signed (s * t) (Float.Model.pack (UnpackedFloat.mul Format.binary64 a b)).unpack := by
  cases ha with
  | infinity => cases hfa
  | zero =>
    cases hb with
    | infinity => cases hfb
    | zero => exact Signed.zero.pack trivial
    | finite n f hn => exact Signed.zero.pack trivial
  | finite m e hm =>
    cases hb with
    | infinity => cases hfb
    | zero => exact Signed.zero.pack trivial
    | finite n f hn => exact pack_rounding (rounding_roundWithAccuracy _ _ _ _ (target_mul hra hrb))

private theorem div (ha : Signed s a) (hb : Signed t b) (hfa : a.isFinite = true) (hfb : b.isFinite = true)
    (hne : Binary64.toRat b ≠ 0) :
    Signed (s / t) (Float.Model.pack (UnpackedFloat.div Format.binary64 a b)).unpack := by
  cases hb with
  | infinity => cases hfb
  | zero => exact absurd rfl hne
  | finite n f hn =>
    cases ha with
    | infinity => cases hfa
    | zero => exact Signed.zero.pack trivial
    | finite m e hm =>
      obtain ⟨m', e', hround, -⟩ := Finite.rounding_div s e hm t f hn
      exact pack_rounding hround

/-- A natural number with a power of ten is read without a sign. -/
private theorem ofScientific (m : ℕ) (e : ℤ) :
    Signed .positive (Float.Model.pack (UnpackedFloat.ofScientific Format.binary64 m e)).unpack := by
  have hrange : (2 : ℤ) ^ Format.binary64.exponentBits = 2048 := rfl
  rw [UnpackedFloat.ofScientific, hrange]
  split_ifs with hm hlarge hsmall hnonneg
  · exact Signed.zero.pack trivial
  · exact Signed.infinity.pack trivial
  · exact Signed.zero.pack trivial
  · -- the bits that are added to the significand leave room for rounding
    have hpos : 0 < m <<< 53 := by
      rw [Nat.shiftLeft_eq]
      omega
    have hten : 0 < 10 ^ e.toNat := Nat.pow_pos (by decide)
    have hlog := log2_shiftLeft 53 hm
    have hplace := place_mul hpos hten
    refine pack_rounding (rounding_roundWithAccuracy _ (m <<< 53 * 10 ^ e.toNat) (-53 + 0) .exact ?_)
    rw [target]
    omega
  · have hten : 0 < 10 ^ (-e).toNat := Nat.pow_pos (by decide)
    obtain ⟨m', e', hround, -⟩ := Finite.rounding_div .positive 0 (Nat.pos_of_ne_zero hm) .positive 0 hten
    exact pack_rounding hround

end Signed

private theorem signed_word (n : UInt64) : Signed .positive n.toFloat.toModel.unpack := by
  have hunpack : n.toFloat.toModel.unpack =
      (Float.Model.pack (UnpackedFloat.normalize Format.binary64 n.toNat 0 .positive)).unpack := rfl
  rw [hunpack, UnpackedFloat.normalize]
  split
  · rename_i hneg
    exact absurd (Int.compare_eq_lt.mp hneg) (not_lt.mpr (Int.natCast_nonneg _))
  · exact Signed.zero.pack trivial
  · exact .pack_rounding (rounding_round _ _ _)

end Binary64

/-- The sign of a float is what its sign bit says. -/
private theorem Binary64.Signed.isNegative {v : Float} {s : Sign} (h : Signed s v.toModel.unpack) :
    v.isNaN = false ∧ WireCut.isNegative v = (s == .negative) := by
  rw [WireCut.isNegative, Exact.ofFloat, Finite.isNaN_eq]
  generalize v.toModel.unpack = u at h ⊢
  cases h <;> exact ⟨rfl, rfl⟩

private theorem signed_power : ∀ {k : ℕ} (_ : k < Float.exactlyRepresentablePowersOfTen.size),
    Signed .positive Float.exactlyRepresentablePowersOfTen[k].toModel.unpack := by
  have hall : ∀ i : Fin Float.exactlyRepresentablePowersOfTen.size,
      isNegative Float.exactlyRepresentablePowersOfTen[i] = false := by
    decide +kernel
  intro k h
  have hfinite : Float.exactlyRepresentablePowersOfTen[k].isFinite = true := (toRat_power ⟨k, h⟩).1
  have hsign : isNegative Float.exactlyRepresentablePowersOfTen[k] = false := hall ⟨k, h⟩
  rw [Finite.isFinite_eq] at hfinite
  rw [isNegative, Exact.ofFloat] at hsign
  generalize Float.exactlyRepresentablePowersOfTen[k].toModel.unpack = u at hfinite hsign ⊢
  obtain ⟨s, rfl⟩ | ⟨s, m, e, hm, rfl⟩ := finite_cases hfinite <;> cases s
  · cases hsign
  · exact .zero
  · cases hsign
  · exact .finite m e hm

/-- What is read for a significand and a power of ten has no sign. -/
private theorem signed_scientific (m : ℕ) (e : ℤ) :
    Signed .positive (Float.ofScientific m (e < 0) e.natAbs).toModel.unpack := by
  rw [Float.ofScientific]
  split
  · rename_i h
    have hsize : e.natAbs < Float.exactlyRepresentablePowersOfTen.size := Nat.lt_succ_of_le h.2
    obtain ⟨hfinite, hpower⟩ := toRat_power ⟨e.natAbs, hsize⟩
    have hsigned := signed_power hsize
    obtain ⟨-, hword⟩ := Nearest.ofWord h.1
    have hne : WireCut.toRat Float.exactlyRepresentablePowersOfTen[(⟨e.natAbs, hsize⟩ : Fin _)] ≠ 0 := by
      rw [hpower]
      positivity
    dsimp only
    split
    · exact (signed_word _).div hsigned hword hfinite hne
    · exact (signed_word _).mul hsigned (rounded_unpack _) (rounded_unpack _) hword hfinite
  · exact .ofScientific _ _

private theorem Binary64.nearestRat_neg (x : ℚ) : nearestRat (-x) = -nearestRat x := by
  obtain hneg | rfl | hpos := lt_trichotomy x 0
  · rw [nearestRat, nearestRat, if_neg (by linarith), if_pos hneg, neg_neg]
  · simp [nearestRat_zero]
  · rw [nearestRat, nearestRat, if_pos (by linarith), if_neg (by linarith), neg_neg]

private theorem Binary64.isFinite_neg (u : UnpackedFloat) : u.neg.isFinite = u.isFinite := by
  cases u <;> rfl

private theorem neg_unpack (v : Float) : (-v).toModel.unpack = (Float.Model.pack v.toModel.unpack.neg).unpack := rfl

private theorem Nearest.neg {x : ℚ} {v : Float} (h : Nearest x v) : Nearest (-x) (-v) := by
  have hfinite : (-v).isFinite = true ↔ v.isFinite = true := by
    refine ⟨fun hneg => ?_, fun hv => (toRat_neg hv).1⟩
    by_contra hv
    have hv' : v.toModel.unpack.neg.isFinite = false := by
      rw [isFinite_neg, ← Finite.isFinite_eq]
      exact Bool.not_eq_true _ ▸ hv
    rw [Finite.isFinite_eq, neg_unpack, unpack_pack _ (rounded_unpack _).neg, Finite.fit_of_not_finite hv'] at hneg
    cases hneg
  refine ⟨?_, fun hneg => ?_⟩
  · rw [hfinite, h.isFinite_iff, nearestRat_neg, abs_neg]
  · rw [(toRat_neg (hfinite.mp hneg)).2, h.toRat_eq (hfinite.mp hneg), nearestRat_neg]

/-- A significand with a sign and a power of ten is read as the float that is nearest to their product, with that
sign. -/
theorem Literal.scaled_nearest (negative : Bool) (m : ℕ) (e : ℤ) :
    Nearest ((if negative then -1 else 1) * (m * 10 ^ e)) (scaled negative m e) ∧
      (scaled negative m e).isNaN = false ∧ isNegative (scaled negative m e) = negative := by
  have hnear := Nearest.ofScientific m e
  have hsigned := signed_scientific m e
  rw [scaled]
  cases negative with
  | false =>
    rw [if_neg Bool.false_ne_true, one_mul]
    exact ⟨hnear, hsigned.isNegative⟩
  | true =>
    rw [if_pos rfl, neg_one_mul]
    have hneg : Signed .negative (-Float.ofScientific m (e < 0) e.natAbs).toModel.unpack :=
      hsigned.neg.pack (rounded_unpack _).neg
    exact ⟨hnear.neg, hneg.isNegative⟩

end WireCut
