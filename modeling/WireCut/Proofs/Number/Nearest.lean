import Mathlib.Algebra.Group.Nat.Defs
import WireCut.Number.Exact

/-! Rounding to an integer. The integer that a number is rounded to is the nearest one, and of two that are equally
near it is the even one. -/
namespace WireCut.Exact

/-- An integer that is nearest to an exact value, and even if another one is as near. The value is compared in units
of its last binary place. -/
def NearestInteger : Exact → Int → Prop
  | .finite negative m e, n =>
    let unit := 2 ^ (-e).toNat
    let miss := 2 * (n * (unit : Nat) - signed negative (m <<< e.toNat)).natAbs
    miss ≤ unit ∧ (miss = unit → 2 ∣ n)
  | _, _ => False

/-- Of two integers that miss a value by no more than half a unit, the lesser is not the even one alone. -/
private theorem not_nearest_below {n k value : Int} {unit : Nat} (hunit : 0 < unit) (hlt : n < k)
    (hnear : 2 * (n * unit - value).natAbs ≤ unit) (heven : 2 * (n * unit - value).natAbs = unit → 2 ∣ n)
    (hnear' : 2 * (k * unit - value).natAbs ≤ unit) (heven' : 2 * (k * unit - value).natAbs = unit → 2 ∣ k) :
    False := by
  have happart : (n + 1) * unit ≤ k * unit :=
    Int.mul_le_mul_of_nonneg_right (by omega) (Int.natCast_nonneg unit)
  have hsucc : (n + 1) * (unit : Int) = n * unit + unit := by rw [Int.add_mul, Int.one_mul]
  -- the two are a unit apart and both half a unit away
  have hnext : (n + 1) * (unit : Int) = k * unit := by omega
  have hk : n + 1 = k := Int.eq_of_mul_eq_mul_right (by omega) hnext
  have := heven (by omega)
  have := heven' (by omega)
  omega

/-- At most one integer is nearest. -/
theorem NearestInteger.unique {x : Exact} {a b : Int} (ha : x.NearestInteger a) (hb : x.NearestInteger b) :
    a = b := by
  cases x with
  | notANumber => cases ha
  | infinite negative => cases ha
  | finite negative m e =>
    have hunit : 0 < 2 ^ (-e).toNat := Nat.two_pow_pos _
    obtain hlt | heq | hgt := Int.lt_trichotomy a b
    · exact (not_nearest_below hunit hlt ha.1 ha.2 hb.1 hb.2).elim
    · exact heq
    · exact (not_nearest_below hunit hgt hb.1 hb.2 ha.1 ha.2).elim

private theorem miss_signed (negative : Bool) (n whole unit : Nat) :
    (signed negative n * (unit : Int) - signed negative whole).natAbs = ((n : Int) * unit - whole).natAbs := by
  cases negative with
  | false => rfl
  | true =>
    rw [signed, signed, if_pos rfl, if_pos rfl, Int.neg_mul, ← Int.natAbs_neg]
    congr 1
    omega

/-- What is rounded to an integer is rounded to the nearest one. -/
private theorem round_nearest {x : Exact} {n : Int} (h : x.round = .ok n) : x.NearestInteger n := by
  cases x with
  | notANumber => cases h
  | infinite negative => cases h
  | finite negative m e =>
    simp only [round, Except.ok.injEq] at h
    subst h
    simp only [NearestInteger, miss_signed]
    generalize m <<< e.toNat = whole
    generalize (-e).toNat = k
    have hunit : 0 < 2 ^ k := Nat.two_pow_pos k
    rw [Nat.shiftRight_eq_div_pow, Nat.shiftLeft_eq, Nat.shiftLeft_eq, Nat.one_mul]
    have hwhole := Nat.div_add_mod' whole (2 ^ k)
    have hrest := Nat.mod_lt whole hunit
    generalize 2 ^ k = unit at hunit hwhole hrest ⊢
    generalize whole / unit = q at hwhole ⊢
    have hbelow : (q : Int) * unit + (whole % unit : Nat) = whole := by exact_mod_cast hwhole
    have habove : ((q + 1 : Nat) : Int) * unit = q * unit + unit := by
      rw [Int.natCast_add, Int.add_mul, Int.natCast_one, Int.one_mul]
    have hdivides (n : Nat) : 2 ∣ signed negative n ↔ n % 2 = 0 := by
      cases negative <;> simp [signed] <;> omega
    rw [hdivides]
    split
    · rename_i hup
      simp only [Bool.or_eq_true, Bool.and_eq_true, decide_eq_true_eq] at hup
      omega
    · rename_i hdown
      simp only [Bool.or_eq_true, Bool.and_eq_true, decide_eq_true_eq] at hdown
      omega

/-- A value is rounded to an integer exactly if this is the nearest one. -/
theorem round_eq_ok {x : Exact} {n : Int} : x.round = .ok n ↔ x.NearestInteger n := by
  refine ⟨round_nearest, fun h => ?_⟩
  cases x with
  | notANumber => cases h
  | infinite negative => cases h
  | finite negative m e =>
    obtain ⟨k, hk⟩ : ∃ k, (finite negative m e).round = .ok k := ⟨_, rfl⟩
    rw [hk, (round_nearest hk).unique h]

end WireCut.Exact
