import WireCut.Number.Exact

/-! The remainder of two floats, computed exactly on their significands. -/
namespace WireCut

/-- The remainder of a division that truncates toward zero. It has the sign of the dividend. -/
def truncatedRemainder (x y : Float) : Float :=
  match Exact.ofFloat x, Exact.ofFloat y with
  | .finite negative m e, .finite _ n f =>
    if n = 0 then notANumber else
      let k := min e f
      Exact.nearest negative ((m <<< (e - k).toNat) % (n <<< (f - k).toNat)) k
  | .finite .., .infinite _ => x
  | _, _ => notANumber

/-- The remainder that has the sign of the divisor, also when it is zero. -/
def modulo (x y : Float) : Float :=
  let r := truncatedRemainder x y
  if r == 0 then signedZero (isNegative y)
  else if decide (y < 0) != decide (r < 0) then r + y
  else r

end WireCut
