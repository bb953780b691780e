import WireCut.Proofs.Number.Nonnegative
import WireCut.Surface.Basic

/-! The total length of a drawing. Lengths are added one after the other, and each addition is rounded, so the total is as near
to the exact sum as the number of strokes allows. It is finite if that sum is well within the range of floats, and never
without a value. -/
namespace WireCut

open Binary64

namespace Surface

def totalLength (strokes : List Stroke) : Float :=
  strokes.foldl (fun total stroke => total + stroke.shape.length) 0

def exactTotal (strokes : List Stroke) : ℚ :=
  (strokes.map fun stroke => toRat stroke.shape.length).sum

variable {strokes : List Stroke}

private theorem totalLength_concat (strokes : List Stroke) (stroke : Stroke) :
    totalLength (strokes ++ [stroke]) = totalLength strokes + stroke.shape.length := by
  rw [totalLength, List.foldl_append]
  rfl

private theorem exactTotal_concat (strokes : List Stroke) (stroke : Stroke) :
    exactTotal (strokes ++ [stroke]) = exactTotal strokes + toRat stroke.shape.length := by
  simp [exactTotal]

theorem zero_le_totalLength (h : ∀ stroke ∈ strokes, 0 ≤ stroke.shape.length) : 0 ≤ totalLength strokes := by
  induction strokes using List.reverseRecOn with
  | nil => exact (zero_le_iff rfl).mpr le_rfl
  | append_singleton strokes stroke ih =>
    rw [totalLength_concat]
    exact zero_le_add (ih fun other hother => h other (List.mem_append_left _ hother)) (h stroke (by simp))

/-- A total is finite only if every length is. -/
theorem lengths_isFinite (h : (totalLength strokes).isFinite = true) :
    ∀ stroke ∈ strokes, stroke.shape.length.isFinite = true := by
  induction strokes using List.reverseRecOn with
  | nil => exact nofun
  | append_singleton strokes stroke ih =>
    rw [totalLength_concat] at h
    obtain ⟨hrest, hlast⟩ := Finite.of_add h
    intro other hother
    obtain hold | hnew := List.mem_append.mp hother
    · exact ih hrest other hold
    · exact List.mem_singleton.mp hnew ▸ hlast

def Measured (strokes : List Stroke) : Prop :=
  ∀ stroke ∈ strokes, stroke.shape.length.isFinite = true ∧ 0 ≤ stroke.shape.length

private theorem measured_concat {stroke : Stroke} (h : Measured (strokes ++ [stroke])) :
    Measured strokes ∧ stroke.shape.length.isFinite = true ∧ 0 ≤ toRat stroke.shape.length := by
  obtain ⟨hfinite, hle⟩ := h stroke (List.mem_append_right _ List.mem_cons_self)
  exact ⟨fun other hother => h other (List.mem_append_left _ hother), hfinite, (zero_le_iff hfinite).mp hle⟩

private theorem exactTotal_nonneg (h : Measured strokes) : 0 ≤ exactTotal strokes := by
  refine List.sum_nonneg fun x hx => ?_
  obtain ⟨stroke, hstroke, rfl⟩ := List.mem_map.mp hx
  exact (zero_le_iff (h stroke hstroke).1).mp (h stroke hstroke).2

theorem exactTotal_le {size : ℚ} (h : ∀ stroke ∈ strokes, toRat stroke.shape.length ≤ size) :
    exactTotal strokes ≤ strokes.length * size := by
  have hsum := List.sum_le_card_nsmul (strokes.map fun stroke => toRat stroke.shape.length) size fun x hx => by
    obtain ⟨stroke, hstroke, rfl⟩ := List.mem_map.mp hx
    exact h stroke hstroke
  rwa [List.length_map, nsmul_eq_mul] at hsum

private theorem toRat_totalLength_nonneg (h : Measured strokes) (hfinite : (totalLength strokes).isFinite = true) :
    0 ≤ toRat (totalLength strokes) :=
  (zero_le_iff hfinite).mp (zero_le_totalLength fun stroke hstroke => (h stroke hstroke).2)

/-- Each stroke adds one rounding to the relative error of a finite total. -/
private theorem totalLength_error (h : Measured strokes) (hfinite : (totalLength strokes).isFinite = true) :
    (1 - 1 / 2 ^ 53) ^ strokes.length * exactTotal strokes ≤ toRat (totalLength strokes) ∧
      toRat (totalLength strokes) ≤ (1 + 1 / 2 ^ 53) ^ strokes.length * exactTotal strokes := by
  induction strokes using List.reverseRecOn with
  | nil => exact ⟨by simp [exactTotal, totalLength, toRat_zero], by simp [exactTotal, totalLength, toRat_zero]⟩
  | append_singleton strokes stroke ih =>
    obtain ⟨hrest, hlast, hlength⟩ := measured_concat h
    rw [totalLength_concat] at hfinite ⊢
    obtain ⟨htotal, -⟩ := Finite.of_add hfinite
    obtain ⟨hlow, hhigh⟩ := ih hrest htotal
    obtain ⟨hless, hmore⟩ := add_error htotal hlast (toRat_totalLength_nonneg hrest htotal) hlength hfinite
    have hsmall : (1 - 1 / 2 ^ 53 : ℚ) ^ strokes.length ≤ 1 := pow_le_one₀ (by norm_num) (by norm_num)
    have hlarge : 1 ≤ (1 + 1 / 2 ^ 53 : ℚ) ^ strokes.length := one_le_pow₀ (by norm_num)
    rw [exactTotal_concat, List.length_append, List.length_singleton, pow_succ _ strokes.length, pow_succ _ strokes.length]
    generalize toRat stroke.shape.length = l at *
    constructor
    · calc (1 - 1 / 2 ^ 53) ^ strokes.length * (1 - 1 / 2 ^ 53) * (exactTotal strokes + l)
        _ = (1 - 1 / 2 ^ 53) * ((1 - 1 / 2 ^ 53) ^ strokes.length * exactTotal strokes +
            (1 - 1 / 2 ^ 53) ^ strokes.length * l) := by ring
        _ ≤ (1 - 1 / 2 ^ 53) * (toRat (totalLength strokes) + l) :=
          mul_le_mul_of_nonneg_left (add_le_add hlow (mul_le_of_le_one_left hlength hsmall)) (by norm_num)
        _ ≤ _ := hless
    · calc toRat (totalLength strokes + stroke.shape.length)
        _ ≤ (1 + 1 / 2 ^ 53) * (toRat (totalLength strokes) + l) := hmore
        _ ≤ (1 + 1 / 2 ^ 53) * ((1 + 1 / 2 ^ 53) ^ strokes.length * exactTotal strokes +
            (1 + 1 / 2 ^ 53) ^ strokes.length * l) :=
          mul_le_mul_of_nonneg_left (add_le_add hhigh (le_mul_of_one_le_left hlength hlarge)) (by norm_num)
        _ = _ := by ring

/-- The total is finite if the exact sum stays below the range of floats with an error for each stroke. -/
theorem totalLength_isFinite (h : Measured strokes) (hlt : (1 + 1 / 2 ^ 53) ^ strokes.length * exactTotal strokes < limit) :
    (totalLength strokes).isFinite = true := by
  induction strokes using List.reverseRecOn with
  | nil => rfl
  | append_singleton strokes stroke ih =>
    obtain ⟨hrest, hlast, hlength⟩ := measured_concat h
    have hsum := exactTotal_nonneg hrest
    have hlarge : 1 ≤ (1 + 1 / 2 ^ 53 : ℚ) ^ strokes.length := one_le_pow₀ (by norm_num)
    rw [exactTotal_concat, List.length_append, List.length_singleton, pow_succ _ strokes.length] at hlt
    rw [totalLength_concat]
    have hpart : (1 + 1 / 2 ^ 53) ^ strokes.length * (exactTotal strokes + toRat stroke.shape.length) < limit := by
      refine lt_of_le_of_lt ?_ hlt
      exact mul_le_mul_of_nonneg_right (le_mul_of_one_le_right (by positivity) (by norm_num)) (by positivity)
    -- the error of what is added before is bounded only once that is known to be finite
    have htotal := ih hrest ((mul_le_mul_of_nonneg_left (by linarith) (by positivity)).trans_lt hpart)
    rw [(Nearest.add htotal hlast).isFinite_iff_lt,
      abs_of_nonneg (add_nonneg (toRat_totalLength_nonneg hrest htotal) hlength)]
    refine lt_of_le_of_lt ?_ hpart
    rw [mul_add]
    exact add_le_add (totalLength_error hrest htotal).2 (le_mul_of_one_le_left hlength hlarge)

/-- The total is not finite if the exact sum is out of the range of floats by an error for each stroke. -/
theorem totalLength_not_isFinite (h : Measured strokes)
    (hle : limit ≤ (1 - 1 / 2 ^ 53) ^ strokes.length * exactTotal strokes) : (totalLength strokes).isFinite = false := by
  rw [← Bool.not_eq_true]
  intro hfinite
  have hlow := (totalLength_error h hfinite).1
  have hhigh := (le_abs_self _).trans_lt (Nearest.abs_toRat_lt hfinite)
  linarith

/-- Not even as many roundings as the commands of a program that is not too long double a number. -/
theorem growth_le_two {n : ℕ} (hn : n ≤ 2 ^ 50) : (1 + 1 / 2 ^ 53 : ℚ) ^ n ≤ 2 := by
  have hcast : (n : ℚ) ≤ 2 ^ 50 := by exact_mod_cast hn
  have hlow := one_add_mul_le_pow (show (-2 : ℚ) ≤ -(1 / 2 ^ 53) by norm_num) n
  have hproduct : (1 + 1 / 2 ^ 53 : ℚ) ^ n * (1 + -(1 / 2 ^ 53)) ^ n ≤ 1 := by
    rw [← mul_pow]
    exact pow_le_one₀ (by norm_num) (by norm_num)
  have hpos : (0 : ℚ) ≤ (1 + 1 / 2 ^ 53) ^ n := by positivity
  nlinarith

end Surface

end WireCut
