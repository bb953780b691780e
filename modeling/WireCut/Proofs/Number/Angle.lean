import WireCut.Proofs.Number.Magnitude

/-! Angles of vectors. A vector has a finite angle exactly when both of its coordinates are numbers, however large
or unbounded they are. -/
namespace WireCut

open Float.Model UnpackedFloat Binary64 FixedPoint

namespace FixedPoint

private theorem quarter_lt : quarter < 2 ^ 193 := by decide +kernel

/-- No angle is more than a few turns. -/
private theorem angle_lt (m : Nat) (e : Int) (left : Bool) (n : Nat) (f : Int) : angle m e left n f < 2 ^ 200 := by
  have hquarter := quarter_lt
  have harctan (q : Nat) : arctan places q ≤ 194 * 2 ^ 192 :=
    Nat.shiftLeft_eq 194 192 ▸ arctan_le places q
  have hacute (a b : Nat) (flat : Prop) [Decidable flat] :
      (if flat then arctan places a else quarter - arctan places b) < 2 ^ 200 := by
    have := harctan a
    split <;> omega
  simp only [angle]
  split
  · omega
  · exact hacute _ _ _

/-- An angle in fixed point is below a few turns as a float, too. -/
private theorem within_angle (negative : Bool) {n : Nat} (h : n < 2 ^ 200) :
    Within 55 (Exact.nearest negative n (-(places : Int))) := by
  have hplaces : places = 192 := rfl
  have hlog : n.log2 < 200 := by
    by_cases hn : n = 0
    · rw [hn, Nat.log2_zero]
      decide
    · exact (Nat.log2_lt hn).mpr h
  exact (Within.nearest negative (k := 8) (by omega) (by omega) (by omega)).mono (by omega)

end FixedPoint

namespace Finite

private theorem unpack_abs {v : Float} {s : Sign} {m : Nat} {e : Int} {h : 0 < m}
    (hv : v.toModel.unpack = .finite s m e h) : v.abs.toModel.unpack = .finite .positive m e h := by
  obtain ⟨hrounded, hlimit⟩ := of_unpack_eq hv
  have habs : v.abs.toModel.unpack = (Float.Model.pack v.toModel.unpack.abs).unpack := rfl
  rw [habs, hv, UnpackedFloat.abs, unpack_pack (.finite .positive m e h) hrounded, fit, if_neg (by omega)]

private theorem smallSlope_unpack : smallSlope.toModel.unpack = .finite .positive (2 ^ 52) (-112) (by decide) := rfl

private theorem exponent_le_of_lt {m n : Nat} {e f : Int} {hm : 0 < m} {hn : 0 < n}
    (h : UnpackedFloat.lt (.finite .positive m e hm) (.finite .positive n f hn) = true) : e ≤ f := by
  simp only [UnpackedFloat.lt, UnpackedFloat.compare] at h
  cases hc : compare e f with
  | lt => exact Int.le_of_lt (Int.compare_eq_lt.mp hc)
  | eq => exact Int.le_of_eq (Int.compare_eq_eq.mp hc)
  | gt => simp [hc] at h

/-- A vector that is flat enough to have its slope as its angle is hardly higher than it is wide. -/
private theorem place_le_of_flat {y x : Float} {s t : Sign} {m n : Nat} {e f : Int} {hm : 0 < m} {hn : 0 < n}
    (hy : y.toModel.unpack = .finite s m e hm) (hx : x.toModel.unpack = .finite t n f hn)
    (h : y.abs < x.abs * smallSlope) : m.log2 + e ≤ n.log2 + f + 53 := by
  obtain ⟨hyrounded, -⟩ := of_unpack_eq hy
  obtain ⟨hxrounded, hxlimit⟩ := of_unpack_eq hx
  have hlog : (n * 2 ^ 52).log2 = n.log2 + 52 := by
    rw [← Nat.shiftLeft_eq]
    exact log2_shiftLeft 52 (Nat.ne_of_gt hn)
  have hround : Rounding (.positive * .positive) (n * 2 ^ 52) (f + -112)
      (UnpackedFloat.mul Format.binary64 (.finite .positive n f hn) (.finite .positive (2 ^ 52) (-112) (by decide))) :=
    rounding_roundWithAccuracy _ _ _ _ (by rw [target, hlog]; omega)
  have hlt : UnpackedFloat.lt y.abs.toModel.unpack (Float.Model.pack
      (UnpackedFloat.mul Format.binary64 x.abs.toModel.unpack smallSlope.toModel.unpack)).unpack = true := of_decide_eq_true h
  rw [unpack_abs hy, unpack_abs hx, smallSlope_unpack] at hlt
  have hstored := hround.stored
  generalize (Float.Model.pack _).unpack = z at hlt hstored
  rw [target] at hyrounded hxrounded
  cases hstored with
  | zero => cases hlt
  | infinity large =>
    rw [target, hlog] at large
    omega
  | finite M E hM rounded low high =>
    have hle := exponent_le_of_lt hlt
    rw [target, hlog] at high
    omega

/-- The angle of a vector is a few turns at most. For one that is a slope a weaker bound is enough. -/
theorem within_atan2 {y x : Float} (hy : y.isNaN = false) (hx : x.isNaN = false) : Within 55 (atan2 y x) := by
  have hquarter := quarter_lt
  have haxis (down left : Bool) :
      Within 55 (if left then Exact.nearest down (2 * quarter) (-(places : Int)) else signedZero down) := by
    cases left with
    | true => exact within_angle _ (by omega)
    | false =>
      rw [if_neg Bool.false_ne_true]
      exact .signedZero down 55
  rw [isNaN_eq] at hy hx
  unfold atan2 Exact.ofFloat
  cases hyu : y.toModel.unpack with
  | notANumber => simp [hyu, UnpackedFloat.isNaN] at hy
  | infinity s =>
    cases hxu : x.toModel.unpack with
    | notANumber => simp [hxu, UnpackedFloat.isNaN] at hx
    | infinity t =>
      refine within_angle _ ?_
      split <;> omega
    | zero t => exact within_angle _ (by omega)
    | finite t n f hn => exact within_angle _ (by omega)
  | zero s =>
    cases hxu : x.toModel.unpack with
    | notANumber => simp [hxu, UnpackedFloat.isNaN] at hx
    | infinity t => exact haxis _ _
    | zero t => exact haxis _ _
    | finite t n f hn => exact haxis _ _
  | finite s m e hm =>
    cases hxu : x.toModel.unpack with
    | notANumber => simp [hxu, UnpackedFloat.isNaN] at hx
    | infinity t => exact haxis _ _
    | zero t =>
      dsimp only
      rw [if_neg (Nat.ne_of_gt hm), if_pos rfl]
      exact within_angle _ (by omega)
    | finite t n f hn =>
      dsimp only
      rw [if_neg (Nat.ne_of_gt hm), if_neg (Nat.ne_of_gt hn)]
      split
      · rename_i hflat
        have hplace := place_le_of_flat hyu hxu (by simpa using (Bool.and_eq_true_iff.mp hflat).2)
        have hyWithin : Within (m.log2 + e + 1) y := by
          rw [Within, hyu]
          exact .finite s m e hm (by omega)
        have hxReaches : Reaches (n.log2 + f) x := by
          rw [Reaches, hxu]
          exact .finite t n f hn (by omega)
        exact hyWithin.div hxReaches (i := 54) (by omega) (by decide) (by decide)
      · exact within_angle _ (angle_lt _ _ _ _ _)

private theorem eq_notANumber {u : UnpackedFloat} (h : u.isNaN = true) : u = .notANumber := by
  cases u with
  | notANumber => rfl
  | _ => cases h

/-- The angle of a vector is finite exactly when its coordinates are numbers. -/
theorem atan2_isFinite (y x : Float) : (atan2 y x).isFinite = (!y.isNaN && !x.isNaN) := by
  have hnan : notANumber.isFinite = false := by decide +kernel
  cases hy : y.isNaN with
  | true =>
    unfold atan2 Exact.ofFloat
    rw [eq_notANumber hy]
    exact hnan
  | false =>
    cases hx : x.isNaN with
    | true =>
      rw [isNaN_eq] at hy
      unfold atan2 Exact.ofFloat
      rw [eq_notANumber hx]
      generalize y.toModel.unpack = u at hy
      cases u with
      | notANumber => cases hy
      | _ => exact hnan
    | false => exact (within_atan2 hy hx).isFinite

end Finite

end WireCut
