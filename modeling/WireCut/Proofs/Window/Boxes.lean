import WireCut.Proofs.Number.Whole
import WireCut.Window.Controls

/-! The box of speeds. Whatever is put into it, it holds a number within the range of floats, if the least speed is one
above zero. -/
namespace WireCut

namespace Quantity

private theorem greater_cases (a b : Quantity) : a.greater b = a ∨ a.greater b = b := by
  rw [greater]
  split
  · exact .inr rfl
  · exact .inl rfl

/-- What is above zero and not finite is above all whole numbers. -/
private theorem whole_lt_of_not_isFinite {q : Quantity} (hpos : (whole 0).lt q = true) (hq : q.isFinite = false) (n : ℤ) :
    (whole n).lt q = true := by
  cases q with
  | float v =>
    have hexact : (Exact.ofInt 0).lt (.ofFloat v) = true := hpos
    change (Exact.ofInt n).lt (.ofFloat v) = true
    rw [isFinite, Finite.isFinite_eq] at hq
    rw [Exact.ofFloat] at hexact ⊢
    generalize v.toModel.unpack = u at hq hexact ⊢
    cases u with
    | notANumber => cases hexact
    | infinity s => cases s <;> first | rfl | cases hexact
    | _ => cases hq
  | _ => cases hq

end Quantity

namespace SpeedBox
open Quantity

/-- A box that goes from a least speed to a thousand, or only stands at a least speed beyond that, and holds a number
within the range of floats. -/
structure Within (least : Quantity) (b : SpeedBox) : Prop where
  low_eq : b.low = least
  high_eq : b.high = least.greater (.whole 1000)
  fits : b.value.fits = true

variable {least : Quantity} {b : SpeedBox}

private theorem high_fits (hfits : least.fits = true) : (least.greater (.whole 1000)).fits = true := by
  obtain heq | heq := least.greater_cases (.whole 1000) <;> rw [heq]
  · exact hfits
  · decide +kernel

/-- A number that was put between the limits is within the range of floats. -/
private theorem limited_fits (hpos : (Quantity.whole 0).lt least = true) (hfits : least.fits = true) (q : Quantity) :
    ((q.greater least).lesser (least.greater (.whole 1000))).fits = true := by
  rw [Quantity.lesser]
  split
  · exact high_fits hfits
  · rename_i hhigh
    by_cases hlow : q.lt least = true
    · rw [Quantity.greater, if_pos hlow]
      exact hfits
    · rw [show q.greater least = q from if_neg hlow] at hhigh ⊢
      cases q with
      | whole n =>
        cases hleast : least.isFinite with
        | false => exact absurd (whole_lt_of_not_isFinite hpos hleast n) hlow
        | true =>
          have hlimit : (least.greater (.whole 1000)).isFinite = true := by
            obtain heq | heq := least.greater_cases (.whole 1000) <;> rw [heq]
            · exact hleast
            · rfl
          rw [Quantity.lt_iff rfl hleast, value_whole] at hlow
          rw [Quantity.lt_iff hlimit rfl, value_whole] at hhigh
          rw [Quantity.lt_iff rfl hleast, value_whole, Int.cast_zero] at hpos
          have hn : (0 : ℚ) ≤ n := hpos.le.trans (not_lt.mp hlow)
          refine whole_fits hlimit (high_fits hfits) ?_
          rw [abs_of_nonneg hn]
          exact (not_lt.mp hhigh).trans (le_abs_self _)
      | _ => rfl

theorem Within.set (hpos : (Quantity.whole 0).lt least = true) (hfits : least.fits = true) (h : b.Within least)
    (q : Quantity) : (b.set q).Within least := by
  rw [SpeedBox.set]
  split
  · exact h
  · refine ⟨h.low_eq, h.high_eq, ?_⟩
    rw [h.low_eq, h.high_eq]
    exact limited_fits hpos hfits q

theorem within_ofSpeeds (hpos : (Quantity.whole 0).lt least = true) (hfits : least.fits = true) (speed : Quantity) :
    (ofSpeeds least speed).Within least := by
  have hzero : (⟨least, least.greater (.whole 1000), .whole 0⟩ : SpeedBox).Within least :=
    ⟨rfl, rfl, (by decide +kernel : (Quantity.whole 0).fits = true)⟩
  exact (hzero.set hpos hfits _).set hpos hfits speed

end SpeedBox

end WireCut
