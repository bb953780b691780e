import WireCut.Number.Circular
import WireCut.Proofs.Number.Binary64

/-! Finite results. A sum is finite only if its parts are, a quotient is finite unless the divisor is too small
beside the dividend, and the angle of a vector is finite whenever its coordinates are numbers. -/
namespace WireCut

open Float.Model UnpackedFloat Binary64

namespace Binary64

/-- What a rounded product can come to in a float: as rounding leaves it, or infinity if it is too large. -/
inductive Stored (s : Sign) (m : Nat) (e : Int) : UnpackedFloat → Prop where
  | zero (small : m ≠ 0 → m.log2 + e < -1074) : Stored s m e (.zero s)
  | infinity (large : 971 ≤ target m e) : Stored s m e (.infinity s)
  | finite (M : Nat) (E : Int) (h : 0 < M) (rounded : E = target M E) (low : target m e ≤ E)
      (high : E ≤ target m e + 1) : Stored s m e (.finite s M E h)

theorem Rounding.stored {s : Sign} {m : Nat} {e : Int} {u : UnpackedFloat} (h : Rounding s m e u) :
    Stored s m e (Float.Model.pack u).unpack := by
  rw [unpack_pack u h.rounded]
  cases h with
  | zero small => exact .zero small
  | finite M E h rounded low high =>
    rw [fit]
    split
    · exact .infinity (by omega)
    · exact .finite M E h rounded low high

theorem Stored.isFinite {s : Sign} {m : Nat} {e : Int} {u : UnpackedFloat} (h : Stored s m e u)
    (hsmall : m.log2 + e < 1023) : u.isFinite = true := by
  cases h with
  | infinity large =>
    rw [target] at large
    omega
  | _ => rfl

private theorem Stored.congr {s : Sign} {m n : Nat} {e f : Int} {u : UnpackedFloat} (h : Stored s m e u)
    (hlog : m.log2 + e = n.log2 + f) (hzero : n ≠ 0 → m ≠ 0) : Stored s n f u := by
  have htarget : target m e = target n f := by rw [target, target, hlog]
  cases h with
  | zero small => exact .zero fun hn => hlog ▸ small (hzero hn)
  | infinity large => exact .infinity (htarget ▸ large)
  | finite M E h rounded low high => exact .finite M E h rounded (htarget ▸ low) (htarget ▸ high)

theorem log2_shiftRight {m k : Nat} (hk : k ≤ m.log2) (hm : m ≠ 0) :
    m >>> k ≠ 0 ∧ (m >>> k).log2 = m.log2 - k := by
  obtain ⟨hlow, hhigh⟩ := (Nat.log2_eq_iff hm).mp rfl
  have hpos : 0 < 2 ^ k := Nat.two_pow_pos k
  have hle : 2 ^ (m.log2 - k) ≤ m >>> k := by
    rw [Nat.shiftRight_eq_div_pow, Nat.le_div_iff_mul_le hpos, ← Nat.pow_add, Nat.sub_add_cancel hk]
    exact hlow
  have hne : m >>> k ≠ 0 := Nat.ne_of_gt (Nat.lt_of_lt_of_le (Nat.two_pow_pos _) hle)
  refine ⟨hne, (Nat.log2_eq_iff hne).mpr ⟨hle, ?_⟩⟩
  rw [Nat.shiftRight_eq_div_pow, Nat.div_lt_iff_lt_mul hpos, ← Nat.pow_add,
    show m.log2 - k + 1 + k = m.log2 + 1 by omega]
  exact hhigh

end Binary64

namespace Exact

private theorem shorten_log2 {m : Nat} (hm : m ≠ 0) :
    (shorten m).1 ≠ 0 ∧ (shorten m).1.log2 + (shorten m).2 = m.log2 := by
  obtain ⟨hne, hlog⟩ := log2_shiftRight (k := m.log2 - 63) (by omega) hm
  simp only [shorten]
  split
  · exact ⟨hne, by omega⟩
  · generalize m >>> (m.log2 - 63) = q at hne hlog
    have hor : q ||| 1 ≠ 0 := fun h => hne (Nat.or_eq_zero_iff.mp h).1
    obtain ⟨hlow, hhigh⟩ := (Nat.log2_eq_iff hne).mp rfl
    have hsame : (q ||| 1).log2 = q.log2 :=
      (Nat.log2_eq_iff hor).mpr ⟨Nat.le_trans hlow Nat.left_le_or,
        Nat.or_lt_two_pow hhigh (Nat.one_lt_two_pow (by omega))⟩
    exact ⟨hor, by omega⟩

theorem stored_nearest (negative : Bool) (m : Nat) (e : Int) :
    Stored (if negative then .negative else .positive) m e (nearest negative m e).toModel.unpack := by
  have hstored := (rounding_round (if negative then .negative else .positive) (shorten m).1
    (e + (shorten m).2)).stored
  by_cases hm : m = 0
  · subst hm
    exact hstored.congr (by simp [shorten]) fun h => absurd rfl h
  · obtain ⟨hne, hlog⟩ := shorten_log2 hm
    exact hstored.congr (by omega) fun _ => hne

end Exact

namespace Finite

theorem isFinite_eq (v : Float) : v.isFinite = v.toModel.unpack.isFinite := rfl

theorem isNaN_eq (v : Float) : v.isNaN = v.toModel.unpack.isNaN := rfl

theorem isNaN_of_isFinite {v : Float} (h : v.isFinite = true) : v.isNaN = false := by
  rw [isFinite_eq] at h
  rw [isNaN_eq]
  generalize v.toModel.unpack = u at h ⊢
  cases u <;> first | rfl | cases h

private theorem fit_isNaN (u : UnpackedFloat) : (fit u).isNaN = u.isNaN := by
  cases u with
  | finite s m e h =>
    rw [fit]
    split <;> rfl
  | _ => rfl

theorem fit_of_not_finite {u : UnpackedFloat} (h : u.isFinite = false) : (fit u).isFinite = false := by
  cases u with
  | finite => cases h
  | zero => cases h
  | _ => rfl

private theorem rounded_add {x y : UnpackedFloat} (hx : Rounded x) (hy : Rounded y) :
    Rounded (UnpackedFloat.add Format.binary64 x y) := by
  fun_cases UnpackedFloat.add Format.binary64 x y <;> first | trivial | exact rounded_normalize _ _ _

private theorem rounded_sub {x y : UnpackedFloat} (hx : Rounded x) (hy : Rounded y) :
    Rounded (UnpackedFloat.sub Format.binary64 x y) := by
  fun_cases UnpackedFloat.sub Format.binary64 x y <;> first | trivial | exact rounded_normalize _ _ _

theorem unpack_add (v w : Float) :
    (v + w).toModel.unpack = fit (UnpackedFloat.add Format.binary64 v.toModel.unpack w.toModel.unpack) :=
  unpack_pack _ (rounded_add (rounded_unpack _) (rounded_unpack _))

theorem unpack_sub (v w : Float) :
    (v - w).toModel.unpack = fit (UnpackedFloat.sub Format.binary64 v.toModel.unpack w.toModel.unpack) :=
  unpack_pack _ (rounded_sub (rounded_unpack _) (rounded_unpack _))

private theorem add_not_finite {x y : UnpackedFloat} (h : (x.isFinite && y.isFinite) = false) :
    (UnpackedFloat.add Format.binary64 x y).isFinite = false := by
  cases x <;> cases y <;> simp only [UnpackedFloat.isFinite, Bool.and_true, Bool.and_false] at h <;>
    first | rfl | cases h
  -- two infinities of either sign
  rw [UnpackedFloat.add]
  split <;> rfl

private theorem normalize_isNaN (m : Int) (e : Int) (s : Sign) :
    (UnpackedFloat.normalize Format.binary64 m e s).isNaN = false := by
  have hround (s : Sign) (n : Nat) : (UnpackedFloat.round Format.binary64 s n e).isNaN = false := by
    have h := rounding_round s n e
    generalize UnpackedFloat.round Format.binary64 s n e = u at h ⊢
    cases h <;> rfl
  rw [UnpackedFloat.normalize]
  split
  · exact hround _ _
  · rfl
  · exact hround _ _

private theorem sub_of_finite {x y : UnpackedFloat} (h : y.isFinite = true) :
    (UnpackedFloat.sub Format.binary64 x y).isNaN = x.isNaN := by
  cases x <;> cases y <;> simp only [UnpackedFloat.isFinite, reduceCtorEq] at h <;>
    first | rfl | exact normalize_isNaN _ _ _ | skip
  -- two zeros
  rw [UnpackedFloat.sub]
  split <;> rfl

private theorem add_of_finite {x y : UnpackedFloat} (h : y.isFinite = true) :
    (UnpackedFloat.add Format.binary64 x y).isNaN = x.isNaN := by
  cases x <;> cases y <;> simp only [UnpackedFloat.isFinite, reduceCtorEq] at h <;>
    first | rfl | exact normalize_isNaN _ _ _ | skip
  -- two zeros
  rw [UnpackedFloat.add]
  split <;> rfl

theorem of_add {v w : Float} (h : (v + w).isFinite = true) : v.isFinite = true ∧ w.isFinite = true := by
  rw [isFinite_eq, unpack_add] at h
  cases hparts : v.isFinite && w.isFinite with
  | true => simpa using hparts
  | false =>
    rw [fit_of_not_finite (add_not_finite hparts)] at h
    cases h

theorem add_isNaN (v : Float) {w : Float} (hw : w.isFinite = true) : (v + w).isNaN = v.isNaN := by
  rw [isNaN_eq, unpack_add, fit_isNaN, add_of_finite hw, ← isNaN_eq]

theorem sub_isNaN (v : Float) {w : Float} (hw : w.isFinite = true) : (v - w).isNaN = v.isNaN := by
  rw [isNaN_eq, unpack_sub, fit_isNaN, sub_of_finite hw, ← isNaN_eq]

/-- A difference of finite numbers is a number, even if it is infinite. -/
theorem sub_isNaN_of_isFinite {v w : Float} (hv : v.isFinite = true) (hw : w.isFinite = true) : (v - w).isNaN = false :=
  (sub_isNaN v hw).trans (isNaN_of_isFinite hv)

private theorem log2_div {a b : Nat} (ha : a ≠ 0) (hb : b ≠ 0) :
    (a / b = 0 → a.log2 ≤ b.log2) ∧
      (a / b ≠ 0 → (a / b).log2 + b.log2 ≤ a.log2 ∧ a.log2 ≤ (a / b).log2 + b.log2 + 1) := by
  obtain ⟨hblow, hbhigh⟩ := (Nat.log2_eq_iff hb).mp rfl
  constructor
  · intro hq
    have hlt : a < b := (Nat.div_eq_zero_iff_lt (Nat.pos_of_ne_zero hb)).mp hq
    have := (Nat.log2_lt ha).mpr (Nat.lt_trans hlt hbhigh)
    omega
  · intro hq
    obtain ⟨hqlow, hqhigh⟩ := (Nat.log2_eq_iff hq).mp rfl
    constructor
    · rw [Nat.le_log2 ha, Nat.pow_add]
      exact Nat.le_trans (Nat.mul_le_mul hqlow hblow) (Nat.div_mul_le_self a b)
    · have hlt : a < 2 ^ ((a / b).log2 + b.log2 + 2) := by
        have hexp : (a / b).log2 + b.log2 + 2 = ((a / b).log2 + 1) + (b.log2 + 1) := by omega
        rw [hexp, Nat.pow_add]
        calc a < (a / b + 1) * b := Nat.lt_mul_of_div_lt (Nat.lt_succ_self _) (Nat.pos_of_ne_zero hb)
          _ ≤ 2 ^ ((a / b).log2 + 1) * 2 ^ (b.log2 + 1) :=
            Nat.mul_le_mul hqhigh (Nat.le_of_lt hbhigh)
      have := (Nat.log2_lt ha).mpr hlt
      omega

/-- A quotient is rounded from the quotient of the significands, once the first one is long enough. It has at most the
expected size. -/
theorem div_eq (s₁ : Sign) {m₁ : Nat} (e₁ : Int) (h₁ : 0 < m₁) (s₂ : Sign) {m₂ : Nat} (e₂ : Int) (h₂ : 0 < m₂) :
    ∃ k : Nat, UnpackedFloat.div Format.binary64 (.finite s₁ m₁ e₁ h₁) (.finite s₂ m₂ e₂ h₂) =
        roundWithAccuracy Format.binary64 (s₁ / s₂) (m₁ <<< k / m₂) (e₁ - e₂ - k)
          (accuracyOfFraction (m₁ <<< k % m₂) m₂) ∧
      e₁ - e₂ - k ≤ target (m₁ <<< k / m₂) (e₁ - e₂ - k) ∧
      (m₁ <<< k / m₂).log2 + (e₁ - e₂ - k) ≤ max (m₁.log2 + e₁ - (m₂.log2 + e₂)) (-1074) := by
  have hmin : Format.binary64.minExponent = -1074 := by decide
  have hbits : Format.binary64.mantissaBits = 53 := by decide
  simp only [UnpackedFloat.div, divCore, Format.targetExponent, totalExponent, hmin, hbits]
  generalize hT : min (e₁ - e₂) (max ((m₁.log2 + 1 + e₁ - (m₂.log2 + 1 + e₂)) - (53 : Nat)) (-1074)) = T
  generalize hk : (e₁ - e₂ - T).toNat = k
  have hlog := log2_shiftLeft k (Nat.ne_of_gt h₁)
  have hne : m₁ <<< k ≠ 0 := by
    rw [Nat.shiftLeft_eq]
    exact Nat.ne_of_gt (Nat.mul_pos h₁ (Nat.two_pow_pos k))
  obtain ⟨hzero, hpos⟩ := log2_div hne (Nat.ne_of_gt h₂)
  have hbounds : T ≤ target (m₁ <<< k / m₂) T ∧
      (m₁ <<< k / m₂).log2 + T ≤ max (m₁.log2 + e₁ - (m₂.log2 + e₂)) (-1074) := by
    rw [target]
    by_cases hq : m₁ <<< k / m₂ = 0
    · have := hzero hq
      rw [hq, Nat.log2_zero]
      omega
    · obtain ⟨hlow, hhigh⟩ := hpos hq
      omega
  refine ⟨k, ?_⟩
  rw [show e₁ - e₂ - k = T by omega]
  exact ⟨rfl, hbounds⟩

/-- A quotient is rounded from a product of at most the expected size. -/
theorem rounding_div (s₁ : Sign) {m₁ : Nat} (e₁ : Int) (h₁ : 0 < m₁) (s₂ : Sign) {m₂ : Nat} (e₂ : Int)
    (h₂ : 0 < m₂) :
    ∃ m e, Rounding (s₁ / s₂) m e
        (UnpackedFloat.div Format.binary64 (.finite s₁ m₁ e₁ h₁) (.finite s₂ m₂ e₂ h₂)) ∧
      m.log2 + e ≤ max (m₁.log2 + e₁ - (m₂.log2 + e₂)) (-1074) := by
  obtain ⟨k, heq, htarget, hsize⟩ := div_eq s₁ e₁ h₁ s₂ e₂ h₂
  rw [heq]
  exact ⟨_, _, rounding_roundWithAccuracy _ _ _ _ htarget, hsize⟩

/-- A quotient of finite numbers is finite, unless the divisor is too small beside the dividend. -/
theorem div_isFinite {v w : Float} {s₁ s₂ : Sign} {m₁ m₂ : Nat} {e₁ e₂ : Int} {h₁ : 0 < m₁} {h₂ : 0 < m₂}
    (hv : v.toModel.unpack = .finite s₁ m₁ e₁ h₁) (hw : w.toModel.unpack = .finite s₂ m₂ e₂ h₂)
    (h : m₁.log2 + e₁ < m₂.log2 + e₂ + 1023) : (v / w).isFinite = true := by
  have hdiv : (v / w).isFinite =
      (Float.Model.pack (UnpackedFloat.div Format.binary64 v.toModel.unpack w.toModel.unpack)).unpack.isFinite := rfl
  obtain ⟨m, e, hround, hsize⟩ := rounding_div s₁ e₁ h₁ s₂ e₂ h₂
  rw [hdiv, hv, hw]
  exact hround.stored.isFinite (by omega)

end Finite

end WireCut
