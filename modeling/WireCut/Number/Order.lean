import WireCut.Number.Exact

/-! The order of exact values. Integers and floats are compared without rounding, and a value that is not a
number is neither before nor after any other. -/
namespace WireCut

namespace Exact

def ofInt (n : Int) : Exact := .finite (n < 0) n.natAbs 0

/-- A signed significand counted in units of `2^k`, for an exponent that is not below `k`. -/
def scaledTo (negative : Bool) (m : Nat) (e k : Int) : Int :=
  signed negative (m <<< (e - k).toNat)

def compare? : Exact → Exact → Option Ordering
  | .notANumber, _ => none
  | _, .notANumber => none
  | .infinite a, .infinite b => some (if a = b then .eq else if a then .lt else .gt)
  | .infinite a, .finite .. => some (if a then .lt else .gt)
  | .finite .., .infinite b => some (if b then .gt else .lt)
  | .finite a m e, .finite b n f =>
    some (compare (scaledTo a m e (min e f)) (scaledTo b n f (min e f)))

def le (a b : Exact) : Bool :=
  match compare? a b with
  | some .lt => true
  | some .eq => true
  | _ => false

def lt (a b : Exact) : Bool :=
  compare? a b = some .lt

def same (a b : Exact) : Bool :=
  compare? a b = some .eq

end Exact

end WireCut
