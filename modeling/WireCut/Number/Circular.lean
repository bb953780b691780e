import WireCut.Number.Exact

/-! Sine, cosine, arctangent and the hypotenuse. Angles are summed from their power series in exact
fixed-point arithmetic and rounded once at the end, so every result can be computed inside a proof. -/
namespace WireCut

namespace FixedPoint

def places : Nat := 192

/-- Binary places of the quarter turn. They leave room for the largest float as an angle. -/
def turnPlaces : Nat := 1300

private def arctanTail (w places : Nat) : Nat → Nat → Nat → Nat
  | 0, _, _ => 0
  | steps + 1, n, term =>
    term + arctanTail w places steps (n + 1) ((term * w * (2 * n) / (2 * n + 1)) >>> places)

/-- The arctangent of a number between zero and one, by the series whose terms have the ratio
`q²/(1+q²) · 2n/(2n+1)`. That ratio is at most one half, so each step gives another binary place. -/
def arctan (places q : Nat) : Nat :=
  let one := 1 <<< places
  let norm := one * one + q * q
  arctanTail ((q * q) <<< places / norm) places (places + 2) 1 ((q * one) <<< places / norm)

private theorem arctanTail_le {w places : Nat} (hw : w ≤ 1 <<< places) (steps n term : Nat) :
    arctanTail w places steps n term ≤ steps * term := by
  induction steps generalizing n term with
  | zero => simp [arctanTail]
  | succ steps ih =>
    have hnext : (term * w * (2 * n) / (2 * n + 1)) >>> places ≤ term := by
      rw [Nat.shiftRight_eq_div_pow]
      refine Nat.div_le_of_le_mul ?_
      calc term * w * (2 * n) / (2 * n + 1) ≤ term * w * (2 * n + 1) / (2 * n + 1) :=
            Nat.div_le_div_right (Nat.mul_le_mul_left _ (Nat.le_succ _))
        _ = term * w := Nat.mul_div_cancel _ (Nat.succ_pos _)
        _ ≤ term * 2 ^ places := Nat.mul_le_mul_left _ (Nat.one_shiftLeft places ▸ hw)
        _ = 2 ^ places * term := Nat.mul_comm _ _
    rw [arctanTail, Nat.add_mul, Nat.one_mul, Nat.add_comm]
    exact Nat.add_le_add_right (Nat.le_trans (ih _ _) (Nat.mul_le_mul_left _ hnext)) _

/-- Every term of the series of an arctangent is at most one. -/
theorem arctan_le (places q : Nat) : arctan places q ≤ (places + 2) <<< places := by
  have ratio {a : Nat} (ha : a ≤ 2 ^ places * 2 ^ places + q * q) :
      a <<< places / (2 ^ places * 2 ^ places + q * q) ≤ 2 ^ places := by
    rw [Nat.shiftLeft_eq]
    exact Nat.div_le_of_le_mul (Nat.mul_le_mul_right _ ha)
  simp only [arctan, Nat.one_shiftLeft]
  rw [Nat.shiftLeft_eq (places + 2)]
  refine Nat.le_trans (arctanTail_le ?_ _ _ _) (Nat.mul_le_mul_left _ (ratio ?_))
  · rw [Nat.one_shiftLeft]
    exact ratio (Nat.le_add_left _ _)
  -- the product of two numbers is at most the sum of their squares
  obtain h | h := Nat.le_total q (2 ^ places)
  · exact Nat.le_trans (Nat.mul_le_mul_right _ h) (Nat.le_add_right _ _)
  · exact Nat.le_trans (Nat.mul_le_mul_left _ h) (Nat.le_add_left _ _)

def quarterTurn : Nat := 2 * arctan turnPlaces (1 <<< turnPlaces)

def quarter : Nat := quarterTurn >>> (turnPlaces - places)

private def alternating (square : Nat) : Nat → Nat → Nat → Int
  | 0, _, _ => 0
  | steps + 1, n, term =>
    term - alternating square steps (n + 2) (((term * square) >>> places) / ((n + 1) * (n + 2)))

def sineCosine (r : Nat) : Int × Int :=
  let square := (r * r) >>> places
  (alternating square 26 1 r, alternating square 26 0 (1 <<< places))

private theorem alternating_bounds {square : Nat} (hsquare : square ≤ 1 <<< places) (steps n term : Nat) :
    0 ≤ alternating square steps n term ∧ alternating square steps n term ≤ term := by
  induction steps generalizing n term with
  | zero => exact ⟨Int.le_refl 0, Int.natCast_nonneg term⟩
  | succ steps ih =>
    have hnext : ((term * square) >>> places) / ((n + 1) * (n + 2)) ≤ term := by
      refine Nat.le_trans (Nat.div_le_self _ _) ?_
      rw [Nat.shiftRight_eq_div_pow]
      refine Nat.div_le_of_le_mul ?_
      rw [Nat.mul_comm, ← Nat.one_shiftLeft]
      exact Nat.mul_le_mul_right term hsquare
    obtain ⟨hlow, hhigh⟩ := ih (n + 2) (((term * square) >>> places) / ((n + 1) * (n + 2)))
    rw [alternating]
    omega

/-- Neither the sine nor the cosine of an angle of at most one is more than one. -/
theorem sineCosine_le {r : Nat} (hr : r ≤ 1 <<< places) :
    (sineCosine r).1.natAbs ≤ 1 <<< places ∧ (sineCosine r).2.natAbs ≤ 1 <<< places := by
  have hsquare : (r * r) >>> places ≤ 1 <<< places := by
    rw [Nat.shiftRight_eq_div_pow]
    refine Nat.div_le_of_le_mul ?_
    rw [← Nat.one_shiftLeft]
    exact Nat.mul_le_mul hr hr
  obtain ⟨hsine, hsine'⟩ := alternating_bounds hsquare 26 1 r
  obtain ⟨hcosine, hcosine'⟩ := alternating_bounds hsquare 26 0 (1 <<< places)
  simp only [sineCosine]
  omega

/-- The multiple of the quarter turn next to the angle `m·2^e`, and what is left of the angle. -/
def reduce (m : Nat) (e : Int) : Nat × Int :=
  let x := m <<< (e + turnPlaces).toNat
  let k := (2 * x + quarterTurn) / (2 * quarterTurn)
  (k, ((x : Int) - k * quarterTurn) >>> (turnPlaces - places))

def sineCosineOf (m : Nat) (e : Int) : Int × Int :=
  let (k, r) := reduce m e
  let (s, cosine) := sineCosine r.natAbs
  let sine := if r < 0 then -s else s
  match k % 4 with
  | 0 => (sine, cosine)
  | 1 => (cosine, -sine)
  | 2 => (-sine, -cosine)
  | _ => (-cosine, sine)

def toFloat (n : Int) : Float :=
  Exact.nearest (n < 0) n.natAbs (-(places : Int))

end FixedPoint

open FixedPoint

/-- The power `2^-27`. Below it the sine of an angle is the angle, and the cosine is one. -/
def smallAngle : Float := 7.450580596923828e-9

/-- The power `2^-60`. Below it a slope to the right is its own angle. -/
def smallSlope : Float := 8.673617379884035e-19

/-- A length below this one has a square that may be too small. -/
def smallLength : Float := 1e-150

def largeLength : Float := 1e150

def sin (v : Float) : Float :=
  match Exact.ofFloat v with
  | .finite negative m e =>
    if v.abs < smallAngle then v
    else
      let s := (sineCosineOf m e).1
      toFloat (if negative then -s else s)
  | _ => notANumber

def cos (v : Float) : Float :=
  match Exact.ofFloat v with
  | .finite _ m e => if v.abs < smallAngle then 1 else toFloat (sineCosineOf m e).2
  | _ => notANumber

def FixedPoint.quotient (m : Nat) (e : Int) (n : Nat) (f : Int) : Nat :=
  let k := e - f + places
  (m <<< k.toNat) / (n <<< (-k).toNat)

def FixedPoint.angle (m : Nat) (e : Int) (left : Bool) (n : Nat) (f : Int) : Nat :=
  let flat := m <<< (e - f).toNat ≤ n <<< (f - e).toNat
  let acute := if flat then arctan places (quotient m e n f) else quarter - arctan places (quotient n f m e)
  if left then 2 * quarter - acute else acute

/-- The angle from the positive first axis to the vector `(x, y)`, between minus and plus half a turn. A
very flat vector to the right has its slope as its angle. -/
def atan2 (y x : Float) : Float :=
  match Exact.ofFloat y, Exact.ofFloat x with
  | .notANumber, _ => notANumber
  | _, .notANumber => notANumber
  | .infinite down, .infinite left =>
    Exact.nearest down (if left then 3 * quarter / 2 else quarter / 2) (-(places : Int))
  | .infinite down, .finite .. => Exact.nearest down quarter (-(places : Int))
  | .finite down _ _, .infinite left =>
    if left then Exact.nearest down (2 * quarter) (-(places : Int)) else signedZero down
  | .finite down m e, .finite left n f =>
    if m = 0 then
      if left then Exact.nearest down (2 * quarter) (-(places : Int)) else signedZero down
    else if n = 0 then Exact.nearest down quarter (-(places : Int))
    else if !left && y.abs < x.abs * smallSlope then y / x
    else Exact.nearest down (angle m e left n f) (-(places : Int))

/-- The length of the vector `(x, y)`. Large and small vectors are scaled by a power of two, so that no
square leaves the range of floats before the length does. -/
def hypot (x y : Float) : Float :=
  if x.isInf || y.isInf then infinity
  else
    let size := if x.abs < y.abs then y.abs else x.abs
    let unit :=
      if size < smallLength then Exact.nearest false 1 (-600)
      else if largeLength < size then Exact.nearest false 1 600
      else 1
    let a := x / unit
    let b := y / unit
    Float.sqrt (a * a + b * b) * unit

end WireCut
