import WireCut.Number.Remainder
import WireCut.Proofs.Number.Finite

/-! Sizes of floats. The place of a float is the power of two that its leading bit stands for, and each operation
bounds the place of its result by those of its arguments. What is bounded is finite. -/
namespace WireCut

open Float.Model UnpackedFloat Binary64

namespace Binary64

inductive Within (k : Int) : UnpackedFloat → Prop where
  | zero (s : Sign) : Within k (.zero s)
  | finite (s : Sign) (m : Nat) (e : Int) (h : 0 < m) (place : m.log2 + e < k) : Within k (.finite s m e h)

inductive Reaches (k : Int) : UnpackedFloat → Prop where
  | finite (s : Sign) (m : Nat) (e : Int) (h : 0 < m) (place : k ≤ m.log2 + e) : Reaches k (.finite s m e h)

namespace Within
variable {j k : Int} {u v : UnpackedFloat}

private theorem mono (h : Within j u) (hle : j ≤ k) : Within k u := by
  cases h with
  | zero s => exact .zero s
  | finite s m e hm place => exact .finite s m e hm (Int.lt_of_lt_of_le place hle)

private theorem abs (h : Within k u) : Within k u.abs := by
  cases h with
  | zero s => exact .zero _
  | finite s m e hm place => exact .finite _ m e hm place

private theorem neg (h : Within k u) : Within k u.neg := by
  cases h with
  | zero s => exact .zero _
  | finite s m e hm place => exact .finite _ m e hm place

/-- Packing keeps what is rounded and bounded. -/
private theorem unpack_pack (h : Within k u) (hu : Rounded u) (hk : k ≤ 1024) : (Float.Model.pack u).unpack = u := by
  rw [Binary64.unpack_pack u hu]
  cases h with
  | zero => rfl
  | finite s m e hm place =>
    have he : e = target m e := hu
    rw [target] at he
    rw [fit, if_neg (by omega)]

private theorem pack (h : Within k u) (hu : Rounded u) (hk : k ≤ 1024) : Within k (Float.Model.pack u).unpack := by
  rw [h.unpack_pack hu hk]
  exact h

end Within

theorem Rounded.abs {u : UnpackedFloat} (h : Rounded u) : Rounded u.abs := by
  cases u with
  | finite s m e hm => exact h
  | _ => trivial

theorem Rounded.neg {u : UnpackedFloat} (h : Rounded u) : Rounded u.neg := by
  cases u with
  | finite s m e hm => exact h
  | _ => trivial

/-- Rounding moves a number by less than one place. -/
private theorem Stored.within {s : Sign} {m : Nat} {e k : Int} {u : UnpackedFloat} (h : Stored s m e u)
    (hplace : m.log2 + e < k) (hlow : 0 ≤ k) (hhigh : k ≤ 1023) : Within (k + 1) u := by
  cases h with
  | zero => exact .zero s
  | infinity large =>
    rw [target] at large
    omega
  | finite M E hM rounded _ high =>
    rw [target] at rounded high
    exact .finite s M E hM (by omega)

private theorem Stored.reaches {s : Sign} {m : Nat} {e k : Int} {u : UnpackedFloat} (h : Stored s m e u) (hm : m ≠ 0)
    (hplace : k ≤ m.log2 + e) (hlow : 0 ≤ k) (hhigh : m.log2 + e < 1023) : Reaches k u := by
  cases h with
  | zero small =>
    have := small hm
    omega
  | infinity large =>
    rw [target] at large
    omega
  | finite M E hM rounded low _ =>
    rw [target] at rounded low
    exact .finite s M E hM (by omega)

private theorem within_normalize {m e k : Int} (s : Sign) (hplace : m ≠ 0 → m.natAbs.log2 + e < k) (hlow : 0 ≤ k)
    (hhigh : k ≤ 1023) : Within (k + 1) (fit (UnpackedFloat.normalize Format.binary64 m e s)) := by
  rw [UnpackedFloat.normalize]
  cases hm : compare m 0 with
  | eq => exact .zero s
  | lt =>
    have hneg := Int.compare_eq_lt.mp hm
    have hround := rounding_round .negative (-m).toNat e
    rw [← Binary64.unpack_pack _ hround.rounded]
    refine hround.stored.within ?_ hlow hhigh
    rw [show (-m).toNat = m.natAbs by omega]
    exact hplace (by omega)
  | gt =>
    have hpos := Int.compare_eq_gt.mp hm
    have hround := rounding_round .positive m.toNat e
    rw [← Binary64.unpack_pack _ hround.rounded]
    refine hround.stored.within ?_ hlow hhigh
    rw [show m.toNat = m.natAbs by omega]
    exact hplace (by omega)

/-- A sum of two significands of one exponent reaches at most one place further. -/
private theorem place_add {a b c k : Int} (ha : a ≠ 0) (hb : b ≠ 0) (hplace : a.natAbs.log2 + c < k)
    (hplace' : b.natAbs.log2 + c < k) (hsum : a + b ≠ 0) : (a + b).natAbs.log2 + c < k + 1 := by
  have hlt : a.natAbs < 2 ^ (k - c).toNat := (Nat.log2_lt (by omega)).mp (by omega)
  have hlt' : b.natAbs < 2 ^ (k - c).toNat := (Nat.log2_lt (by omega)).mp (by omega)
  have : (a + b).natAbs < 2 ^ ((k - c).toNat + 1) := by
    rw [Nat.pow_succ]
    omega
  have := (Nat.log2_lt (by omega)).mpr this
  omega

/-- A significand that is moved to a lower exponent, with a sign. -/
private theorem place_apply (s : Sign) {m : Nat} {e c : Int} (hm : 0 < m) (hc : c ≤ e) :
    s.apply (m <<< (e - c).toNat : Nat) ≠ 0 ∧ (s.apply (m <<< (e - c).toNat : Nat)).natAbs.log2 + c = m.log2 + e := by
  have hlog := log2_shiftLeft (e - c).toNat (Nat.ne_of_gt hm)
  have hpos : 0 < m <<< (e - c).toNat := by
    rw [Nat.shiftLeft_eq]
    exact Nat.mul_pos hm (Nat.two_pow_pos _)
  generalize m <<< (e - c).toNat = n at hlog hpos
  have hnat : (s.apply (n : Int)).natAbs = n := by
    cases s <;> simp [Sign.apply]
  refine ⟨fun h => ?_, by rw [hnat]; omega⟩
  rw [h] at hnat
  omega

private theorem within_add {x y : UnpackedFloat} {k : Int} (hx : Within k x) (hy : Within k y) (hrx : Rounded x)
    (hry : Rounded y) (hlow : 0 ≤ k) (hhigh : k ≤ 1022) :
    Within (k + 2) (fit (UnpackedFloat.add Format.binary64 x y)) := by
  have keep {u : UnpackedFloat} (hu : Within k u) (hr : Rounded u) : Within (k + 2) (fit u) := by
    rw [← Binary64.unpack_pack u hr, hu.unpack_pack hr (by omega)]
    exact hu.mono (by omega)
  cases hx with
  | zero s =>
    cases hy with
    | zero t =>
      rw [UnpackedFloat.add]
      split <;> exact .zero _
    | finite t n f hn place => exact keep (.finite t n f hn place) hry
  | finite s m e hm place =>
    cases hy with
    | zero t => exact keep (.finite s m e hm place) hrx
    | finite t n f hn place' =>
      obtain ⟨hne, hlog⟩ := place_apply s hm (Int.min_le_left e f)
      obtain ⟨hne', hlog'⟩ := place_apply t hn (Int.min_le_right e f)
      rw [show k + 2 = k + 1 + 1 by omega]
      refine within_normalize _ (fun hsum => ?_) (by omega) (by omega)
      exact place_add hne hne' (by omega) (by omega) hsum

/-- A difference is the sum with the negated number. -/
theorem sub_eq_add (x y : UnpackedFloat) :
    UnpackedFloat.sub Format.binary64 x y = UnpackedFloat.add Format.binary64 x y.neg := by
  cases x <;> cases y <;> try rfl
  rename_i s m e hm t n f hn
  have happly (i : Int) : (-t).apply i = -t.apply i := by
    cases t
    · exact (Int.neg_neg i).symm
    · exact rfl
  simp only [UnpackedFloat.sub, UnpackedFloat.add, UnpackedFloat.neg, happly, Int.sub_eq_add_neg]

theorem place_mul {m n : Nat} (hm : 0 < m) (hn : 0 < n) :
    m.log2 + n.log2 ≤ (m * n).log2 ∧ (m * n).log2 ≤ m.log2 + n.log2 + 1 := by
  obtain ⟨hlow, hhigh⟩ := (Nat.log2_eq_iff (Nat.ne_of_gt hm)).mp rfl
  obtain ⟨hlow', hhigh'⟩ := (Nat.log2_eq_iff (Nat.ne_of_gt hn)).mp rfl
  have hne : m * n ≠ 0 := Nat.ne_of_gt (Nat.mul_pos hm hn)
  constructor
  · rw [Nat.le_log2 hne, Nat.pow_add]
    exact Nat.mul_le_mul hlow hlow'
  · have : m * n < 2 ^ (m.log2 + n.log2 + 2) := by
      rw [show m.log2 + n.log2 + 2 = (m.log2 + 1) + (n.log2 + 1) by omega, Nat.pow_add]
      exact Nat.mul_lt_mul'' hhigh hhigh'
    have := (Nat.log2_lt hne).mpr this
    omega

/-- The product of two significands has all its bits: either one of them has, or the exponent is below all others. -/
theorem target_mul {s t : Sign} {m n : Nat} {e f : Int} {hm : 0 < m} {hn : 0 < n} (hx : Rounded (.finite s m e hm))
    (hy : Rounded (.finite t n f hn)) : e + f ≤ target (m * n) (e + f) := by
  have hlog := place_mul hm hn
  obtain ⟨-, -, hnormal⟩ := hx.bits
  obtain ⟨-, -, hnormal'⟩ := hy.bits
  rw [target]
  omega

/-- A product of finite floats is rounded from the product of their significands. -/
private theorem stored_mul {s t : Sign} {m n : Nat} {e f : Int} {hm : 0 < m} {hn : 0 < n}
    (hx : Rounded (.finite s m e hm)) (hy : Rounded (.finite t n f hn)) :
    Stored (s * t) (m * n) (e + f)
      (Float.Model.pack (UnpackedFloat.mul Format.binary64 (.finite s m e hm) (.finite t n f hn))).unpack :=
  (rounding_roundWithAccuracy _ _ _ _ (target_mul hx hy)).stored

end Binary64

def Within (k : Int) (v : Float) : Prop :=
  Binary64.Within k v.toModel.unpack

def Reaches (k : Int) (v : Float) : Prop :=
  Binary64.Reaches k v.toModel.unpack

namespace Within
variable {j k : Int} {v w : Float}

theorem isFinite (h : Within k v) : v.isFinite = true := by
  rw [Finite.isFinite_eq]
  rw [Within] at h
  generalize v.toModel.unpack = u at h
  cases h <;> rfl

theorem mono (h : Within j v) (hle : j ≤ k) : Within k v :=
  Binary64.Within.mono h hle

theorem add (hv : Within k v) (hw : Within k w) (hlow : 0 ≤ k) (hhigh : k ≤ 1022) : Within (k + 2) (v + w) := by
  rw [Within, Finite.unpack_add]
  exact within_add hv hw (rounded_unpack _) (rounded_unpack _) hlow hhigh

theorem abs (hv : Within k v) (hk : k ≤ 1024) : Within k v.abs :=
  (Binary64.Within.abs hv).pack (rounded_unpack _).abs hk

theorem neg (hv : Within k v) (hk : k ≤ 1024) : Within k (-v) :=
  (Binary64.Within.neg hv).pack (rounded_unpack _).neg hk

theorem sub (hv : Within k v) (hw : Within k w) (hlow : 0 ≤ k) (hhigh : k ≤ 1022) : Within (k + 2) (v - w) := by
  rw [Within, Finite.unpack_sub, sub_eq_add]
  exact within_add hv (Binary64.Within.neg hw) (rounded_unpack _) (rounded_unpack _).neg hlow hhigh

theorem mul (hv : Within j v) (hw : Within k w) (hlow : 0 ≤ j + k) (hhigh : j + k ≤ 1023) :
    Within (j + k + 1) (v * w) := by
  have hmul : (v * w).toModel.unpack =
      (Float.Model.pack (UnpackedFloat.mul Format.binary64 v.toModel.unpack w.toModel.unpack)).unpack := rfl
  have hrv := rounded_unpack v.toModel
  have hrw := rounded_unpack w.toModel
  rw [Within] at hv hw ⊢
  rw [hmul]
  generalize v.toModel.unpack = x at hv hrv ⊢
  generalize w.toModel.unpack = y at hw hrw ⊢
  have hzero (s : Sign) : Binary64.Within (j + k + 1) (Float.Model.pack (.zero s)).unpack := by
    exact Binary64.Within.pack (.zero s) trivial (by omega)
  cases hv with
  | zero s => cases hw <;> exact hzero _
  | finite s m e hm place =>
    cases hw with
    | zero t => exact hzero _
    | finite t n f hn place' =>
      have hlog := place_mul hm hn
      exact (stored_mul hrv hrw).within (by omega) hlow hhigh

theorem div {i : Int} (hv : Within j v) (hw : Reaches k w) (hle : j - k ≤ i) (hlow : 0 ≤ i) (hhigh : i ≤ 1023) :
    Within (i + 1) (v / w) := by
  have hdiv : (v / w).toModel.unpack =
      (Float.Model.pack (UnpackedFloat.div Format.binary64 v.toModel.unpack w.toModel.unpack)).unpack := rfl
  rw [Within] at hv ⊢
  rw [Reaches] at hw
  rw [hdiv]
  generalize v.toModel.unpack = x at hv ⊢
  generalize w.toModel.unpack = y at hw ⊢
  cases hw with
  | finite t n f hn place' =>
    cases hv with
    | zero s =>
      exact Binary64.Within.pack (.zero _) trivial (by omega)
    | finite s m e hm place =>
      obtain ⟨_, _, hround, hsize⟩ := Finite.rounding_div s e hm t f hn
      exact hround.stored.within (by omega) hlow hhigh

theorem signedZero (negative : Bool) (k : Int) : Within k (signedZero negative) := by
  cases negative <;> exact Binary64.Within.zero _

theorem nearest (negative : Bool) {m : Nat} {e : Int} (hplace : m.log2 + e < k) (hlow : 0 ≤ k) (hhigh : k ≤ 1023) :
    Within (k + 1) (Exact.nearest negative m e) :=
  (Exact.stored_nearest negative m e).within hplace hlow hhigh

end Within

theorem Exact.ofFloat_of_isFinite {v : Float} (h : v.isFinite = true) :
    ∃ negative m e, Exact.ofFloat v = .finite negative m e := by
  rw [Finite.isFinite_eq] at h
  unfold ofFloat
  generalize v.toModel.unpack = u at h ⊢
  cases u <;> first | exact ⟨_, _, _, rfl⟩ | cases h

/-- A number that is below `2^k` in size is not rounded up beyond `2^k`. -/
theorem Within.ceil {k : Nat} {v : Float} (h : Within k v) : ∃ n : Int, (Exact.ofFloat v).ceil = .ok n ∧ n ≤ 2 ^ k := by
  have bound (negative : Bool) (m : Nat) (e : Int) (hm : (m <<< e.toNat) >>> (-e).toNat < 2 ^ k) :
      ∃ n : Int, (Exact.finite negative m e).ceil = .ok n ∧ n ≤ 2 ^ k := by
    have hpow : ((2 ^ k : Nat) : Int) = 2 ^ k := by norm_cast
    simp only [Exact.ceil]
    generalize (m <<< e.toNat) >>> (-e).toNat = q at hm
    split
    · refine ⟨_, rfl, ?_⟩
      rw [Exact.signed]
      split <;> omega
    · exact ⟨_, rfl, by rw [Exact.signed]; split <;> omega⟩
  rw [Within] at h
  unfold Exact.ofFloat
  generalize v.toModel.unpack = u at h ⊢
  cases h with
  | zero s => exact bound _ 0 0 (by simp)
  | finite s m e hm place =>
    refine bound _ m e ?_
    have hlt : m < 2 ^ (m.log2 + 1) := (Nat.log2_lt (by omega)).mp (Nat.lt_succ_self _)
    rw [Nat.shiftRight_eq_div_pow, Nat.shiftLeft_eq, Nat.div_lt_iff_lt_mul (Nat.two_pow_pos _), ← Nat.pow_add]
    calc m * 2 ^ e.toNat < 2 ^ (m.log2 + 1) * 2 ^ e.toNat := Nat.mul_lt_mul_of_pos_right hlt (Nat.two_pow_pos _)
      _ = 2 ^ (m.log2 + 1 + e.toNat) := (Nat.pow_add _ _ _).symm
      _ ≤ 2 ^ (k + (-e).toNat) := Nat.pow_le_pow_right (by decide) (by omega)

/-- A whole number of at most 53 bits is read without rounding. -/
theorem ofNat_eq {n : Nat} (h : n < 2 ^ 53) : Float.ofNat n = n.toUInt64.toFloat * 1 := by
  change Float.ofScientific n false 0 = _
  rw [Float.ofScientific, dif_pos ⟨h, by decide⟩]
  rfl

theorem stored_toFloat {n : Nat} (hn : n ≠ 0) (h : n < 2 ^ 53) :
    Stored .positive n 0 n.toUInt64.toFloat.toModel.unpack := by
  have hnat : n.toUInt64.toNat = n := by
    rw [Nat.toUInt64_eq, UInt64.toNat_ofNat', Nat.mod_eq_of_lt (by omega)]
  have hunpack : n.toUInt64.toFloat.toModel.unpack =
      (Float.Model.pack (UnpackedFloat.normalize Format.binary64 n.toUInt64.toNat 0 .positive)).unpack := rfl
  rw [hunpack, hnat, UnpackedFloat.normalize, Int.compare_eq_gt.mpr (show (0 : Int) < n by omega)]
  exact (rounding_round .positive n 0).stored

theorem one_unpack : (1 : Float).toModel.unpack = .finite .positive (2 ^ 52) (-52) (by decide) := rfl

private theorem within_one : Within 1 1 := by
  rw [Within, one_unpack]
  exact .finite _ _ _ _ (by decide)

theorem within_ofNat {n k : Nat} (h : n < 2 ^ k) (hk : k ≤ 53) : Within (k + 3) (Float.ofNat n) := by
  have hn : n < 2 ^ 53 := Nat.lt_of_lt_of_le h (Nat.pow_le_pow_right (by decide) hk)
  rw [ofNat_eq hn]
  by_cases hzero : n = 0
  · subst hzero
    exact .zero _
  · have hlog := (Nat.log2_lt hzero).mpr h
    have hfloat : Within (k + 1) n.toUInt64.toFloat := (stored_toFloat hzero hn).within (by omega) (by omega) (by omega)
    have := hfloat.mul within_one (by omega) (by omega)
    rwa [show (k : Int) + 3 = k + 1 + 1 + 1 by omega]

/-- A whole number other than zero is at least one. -/
theorem reaches_ofNat {n : Nat} (hzero : n ≠ 0) (h : n < 2 ^ 53) : Reaches 0 (Float.ofNat n) := by
  have hlog := (Nat.log2_lt hzero).mpr h
  have hstored := stored_toFloat hzero h
  have hlow : Binary64.Reaches 0 n.toUInt64.toFloat.toModel.unpack := hstored.reaches hzero (by omega) (by omega) (by omega)
  have hhigh : Binary64.Within (53 + 1) n.toUInt64.toFloat.toModel.unpack := hstored.within (by omega) (by omega) (by omega)
  have hmul : (n.toUInt64.toFloat * 1).toModel.unpack = (Float.Model.pack (UnpackedFloat.mul Format.binary64
      n.toUInt64.toFloat.toModel.unpack (1 : Float).toModel.unpack)).unpack := rfl
  have hrounded := rounded_unpack n.toUInt64.toFloat.toModel
  have hone := rounded_unpack (1 : Float).toModel
  rw [ofNat_eq h, Reaches, hmul]
  rw [one_unpack] at hone ⊢
  generalize n.toUInt64.toFloat.toModel.unpack = u at hlow hhigh hrounded
  cases hlow with
  | finite s m e hm reach =>
    cases hhigh with
    | finite _ _ _ _ place =>
      have hproduct : (m * 2 ^ 52).log2 = m.log2 + 52 := by
        rw [← Nat.shiftLeft_eq]
        exact log2_shiftLeft 52 (Nat.ne_of_gt hm)
      have hne : m * 2 ^ 52 ≠ 0 := Nat.ne_of_gt (Nat.mul_pos hm (by decide))
      exact (stored_mul hrounded hone).reaches hne (by omega) (by omega) (by omega)

/-- The remainder is not larger than the divisor. -/
private theorem within_truncatedRemainder {x y : Float} {k : Int} (hx : x.isFinite = true) (hy : Within k y) (hne : Reaches 0 y)
    (hhigh : k ≤ 1022) : Within (k + 1) (truncatedRemainder x y) := by
  obtain ⟨negative, m, e, hxeq⟩ := Exact.ofFloat_of_isFinite hx
  unfold truncatedRemainder
  rw [hxeq]
  rw [Within] at hy
  rw [Reaches] at hne
  unfold Exact.ofFloat
  generalize y.toModel.unpack = u at hy hne
  cases hne with
  | finite s n f hn reach =>
    cases hy with
    | finite _ _ _ _ place =>
      simp only [if_neg (Nat.ne_of_gt hn)]
      have hpos : n <<< (f - min e f).toNat ≠ 0 := by
        rw [Nat.shiftLeft_eq]
        exact Nat.ne_of_gt (Nat.mul_pos hn (Nat.two_pow_pos _))
      have hlog := log2_shiftLeft (f - min e f).toNat (Nat.ne_of_gt hn)
      have hlt := Nat.mod_lt (m <<< (e - min e f).toNat) (Nat.pos_of_ne_zero hpos)
      generalize n <<< (f - min e f).toNat = b at hpos hlog hlt
      generalize m <<< (e - min e f).toNat % b = r at hlt
      refine .nearest negative ?_ (by omega) (by omega)
      have : r.log2 ≤ b.log2 := by
        by_cases hr : r = 0
        · rw [hr, Nat.log2_zero]
          exact Nat.zero_le _
        · exact Nat.le_of_lt_succ ((Nat.log2_lt hr).mpr (Nat.lt_trans hlt (Nat.lt_log2_self)))
      omega

theorem within_modulo {x y : Float} {k : Int} (hx : x.isFinite = true) (hy : Within k y) (hne : Reaches 0 y)
    (hlow : 0 ≤ k) (hhigh : k ≤ 1000) : Within (k + 3) (modulo x y) := by
  have hr := within_truncatedRemainder hx hy hne (by omega)
  simp only [modulo]
  split
  · exact .signedZero _ _
  · split
    · have := hr.add (hy.mono (by omega)) (by omega) (by omega)
      rwa [show k + 3 = k + 1 + 2 by omega]
    · exact hr.mono (by omega)

end WireCut
