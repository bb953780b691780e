import WireCut.Number.Quantity
import WireCut.Proofs.Number.Value

/-! Exact values and quantities as rational numbers. They are compared and rounded up as such. -/
namespace WireCut

namespace Exact

def value : Exact → ℚ
  | .finite negative m e => (if negative then -1 else 1) * (m * 2 ^ e)
  | _ => 0

theorem value_ofFloat (v : Float) : (ofFloat v).value = toRat v := by
  rw [ofFloat, toRat]
  cases v.toModel.unpack with
  | finite s m e hm => cases s <;> rfl
  | zero s => simp [value, Binary64.toRat]
  | _ => rfl

theorem value_ofInt (n : ℤ) : (ofInt n).value = n := by
  rw [ofInt, value, zpow_zero, mul_one, Nat.cast_natAbs]
  by_cases hn : n < 0
  · simp [hn, abs_of_neg hn]
  · simp [hn, abs_of_nonneg (not_lt.mp hn)]

private theorem scaledTo_value (negative : Bool) (m : ℕ) {e k : ℤ} (h : k ≤ e) :
    (scaledTo negative m e k : ℚ) * 2 ^ k = (finite negative m e).value := by
  cases negative
  · exact Binary64.apply_shifted .positive m h
  · exact Binary64.apply_shifted .negative m h

/-- Finite values are compared without rounding. -/
theorem compare?_finite (a : Bool) (m : ℕ) (e : ℤ) (b : Bool) (n : ℕ) (f : ℤ) :
    compare? (finite a m e) (finite b n f) = some (compare (finite a m e).value (finite b n f).value) := by
  have hmono : StrictMono fun k : ℤ => (k * 2 ^ min e f : ℚ) := fun j k hjk =>
    mul_lt_mul_of_pos_right (by exact_mod_cast hjk) (by positivity)
  have hcompare := hmono.cmp_map_eq (scaledTo a m e (min e f)) (scaledTo b n f (min e f))
  simp only [scaledTo_value a m (min_le_left e f), scaledTo_value b n (min_le_right e f), cmp_eq_compare] at hcompare
  rw [compare?, hcompare]

/-- A finite value is rounded up to the least integer that is not below it. -/
private theorem ceil_finite (negative : Bool) (m : ℕ) (e : ℤ) :
    (finite negative m e).ceil = .ok ⌈(finite negative m e).value⌉ := by
  have hvalue : (finite negative m e).value = (if negative then -1 else 1) * ((m <<< e.toNat : ℕ) / (2 ^ (-e).toNat : ℕ)) := by
    rw [value, Nat.shiftLeft_eq]
    congr 1
    push_cast
    rw [eq_div_iff (by positivity), mul_assoc, ← zpow_natCast, ← zpow_natCast, ← zpow_add₀ two_ne_zero]
    congr 2
    omega
  rw [hvalue]
  simp only [ceil]
  generalize m <<< e.toNat = a
  generalize (-e).toNat = k
  rw [Nat.shiftRight_eq_div_pow, Nat.shiftLeft_eq]
  have hpos : 0 < 2 ^ k := Nat.two_pow_pos k
  generalize 2 ^ k = b at hpos
  have hfloor : ⌊(a / b : ℚ)⌋ = (a / b : ℕ) := by
    rw [← Int.natCast_floor_eq_floor (by positivity), Nat.floor_div_eq_div]
  cases negative
  · simp only [Bool.or_false, decide_eq_true_eq, Bool.false_eq_true, if_false, one_mul]
    have hrest : (a : ℚ) / b = (a / b : ℕ) + (a % b : ℕ) / b := by
      rw [div_eq_iff (by positivity), add_mul, div_mul_cancel₀ _ (by positivity)]
      exact_mod_cast (Nat.div_add_mod' a b).symm
    have hbelow : ((a % b : ℕ) / b : ℚ) < 1 := by
      rw [div_lt_one (by positivity)]
      exact_mod_cast Nat.mod_lt a hpos
    have hdiv := Nat.div_add_mod' a b
    split_ifs with hexact
    · rw [hrest, show a % b = 0 by omega]
      simp [signed]
    · have habove : (0 : ℚ) < (a % b : ℕ) / b := by
        have : 0 < a % b := by omega
        positivity
      have hceil : ⌈(a / b : ℚ)⌉ = ((a / b : ℕ) : ℤ) + 1 := by
        rw [Int.ceil_eq_iff, hrest, Int.cast_add, Int.cast_natCast, Int.cast_one]
        constructor <;> linarith
      rw [hceil]
      rfl
  · have hneg : (-1 * (a / b) : ℚ) = -(a / b) := by ring
    simp only [Bool.or_true, if_true]
    rw [hneg, Int.ceil_neg, hfloor]
    rfl

/-- A float is rounded up to an integer exactly if it is finite. -/
theorem ceil_eq_ok {v : Float} {n : ℤ} : (ofFloat v).ceil = .ok n ↔ v.isFinite = true ∧ n = ⌈toRat v⌉ := by
  rw [← value_ofFloat]
  cases hv : v.isFinite with
  | true =>
    obtain ⟨s, m, e, hexact⟩ := ofFloat_of_isFinite hv
    rw [hexact, ceil_finite, Except.ok.injEq, eq_comm]
    exact (and_iff_right rfl).symm
  | false =>
    refine iff_of_false (fun h => ?_) (fun h => Bool.false_ne_true h.1)
    rw [Finite.isFinite_eq] at hv
    rw [ofFloat] at h
    generalize v.toModel.unpack = u at hv h
    cases u with
    | infinity s => cases h
    | notANumber => cases h
    | _ => cases hv

/-- A float is rounded to an integer only if it is finite, and the integer has no other sign. -/
theorem of_round {v : Float} {n : ℤ} (h : (ofFloat v).round = .ok n) : v.isFinite = true ∧ (0 ≤ toRat v → 0 ≤ n) := by
  cases hv : v.isFinite with
  | false =>
    rw [Finite.isFinite_eq] at hv
    rw [ofFloat] at h
    generalize v.toModel.unpack = u at hv h
    cases u with
    | infinity s => cases h
    | notANumber => cases h
    | _ => cases hv
  | true =>
    refine ⟨rfl, fun hnonneg => ?_⟩
    obtain ⟨negative, m, e, hexact⟩ := ofFloat_of_isFinite hv
    rw [← value_ofFloat, hexact, value] at hnonneg
    rw [hexact] at h
    cases negative with
    | false =>
      simp only [round, Except.ok.injEq] at h
      rw [← h]
      exact Int.natCast_nonneg _
    | true =>
      have hm : m = 0 := by
        by_contra hm
        have : (0 : ℚ) < m * 2 ^ e := mul_pos (by exact_mod_cast Nat.pos_of_ne_zero hm) (by positivity)
        rw [if_pos rfl] at hnonneg
        linarith
      subst hm
      simp [round, signed] at h
      omega

/-- What is not less than a finite value or equal to it is greater, or has no value. -/
theorem lt_of_not_le {v : Exact} {negative : Bool} {m : ℕ} {e : ℤ} (h : v.le (finite negative m e) = false) :
    (finite negative m e).lt v = true ∨ v = .notANumber := by
  cases v with
  | notANumber => exact .inr rfl
  | infinite low => cases low <;> first | exact .inl rfl | cases h
  | finite a n f =>
    rw [le, compare?_finite] at h
    rw [lt, compare?_finite, decide_eq_true_iff, Option.some_inj, compare_lt_iff_lt]
    obtain hlt | heq | hgt := lt_trichotomy (finite a n f).value (finite negative m e).value
    · rw [compare_lt_iff_lt.mpr hlt] at h
      cases h
    · rw [compare_eq_iff_eq.mpr heq] at h
      cases h
    · exact .inl hgt

end Exact

namespace Quantity

def value (q : Quantity) : ℚ :=
  q.exact.value

@[simp] theorem value_whole (n : ℤ) : (whole n).value = n :=
  Exact.value_ofInt n

@[simp] theorem value_truth (b : Bool) : (truth b).value = if b then 1 else 0 := by
  cases b <;> exact (Exact.value_ofInt _).trans (by norm_num)

@[simp] theorem value_float (v : Float) : (float v).value = toRat v :=
  Exact.value_ofFloat v

theorem exact_of_isFinite {q : Quantity} (h : q.isFinite = true) : ∃ negative m e, q.exact = .finite negative m e := by
  cases q with
  | float v => exact Exact.ofFloat_of_isFinite h
  | _ => exact ⟨_, _, _, rfl⟩

/-- Finite quantities are compared without rounding. -/
theorem lt_iff {a b : Quantity} (ha : a.isFinite = true) (hb : b.isFinite = true) : a.lt b = true ↔ a.value < b.value := by
  have hexact : a.exact.lt b.exact = true ↔ a.value < b.value := by
    obtain ⟨s, m, e, ha⟩ := exact_of_isFinite ha
    obtain ⟨t, n, f, hb⟩ := exact_of_isFinite hb
    rw [value, value, ha, hb, Exact.lt, Exact.compare?_finite, decide_eq_true_iff, Option.some_inj, compare_lt_iff_lt]
  cases a with
  | float v =>
    cases b with
    | float w => rw [lt, decide_eq_true_iff, value_float, value_float, WireCut.lt_iff ha hb]
    | _ => exact hexact
  | _ => exact hexact

end Quantity

end WireCut
