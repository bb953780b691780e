/-! Exact values of binary floats. A float is read as a signed significand times a power of two, such a
product is rounded back to the nearest float, and a float is rounded to an integer without overflow. -/
namespace WireCut

inductive ArithmeticError where
  | divisionByZero
  | wholeDivisionByZero
  | infiniteInteger
  | undefinedInteger
  | tooLarge
  | quotientTooLarge
  | powerTooLarge
deriving DecidableEq

def ArithmeticError.message : ArithmeticError → String
  | .divisionByZero => "float division by zero"
  | .wholeDivisionByZero => "division by zero"
  | .infiniteInteger => "cannot convert float infinity to integer"
  | .undefinedInteger => "cannot convert float NaN to integer"
  | .tooLarge => "int too large to convert to float"
  | .quotientTooLarge => "integer division result too large for a float"
  | .powerTooLarge => "(34, 'Numerical result out of range')"

/-- What a float denotes: the real number `±significand·2^exponent`, an infinity, or no number. -/
inductive Exact where
  | notANumber
  | infinite (negative : Bool)
  | finite (negative : Bool) (significand : Nat) (exponent : Int)
deriving DecidableEq

namespace Exact
open Float.Model

def ofFloat (v : Float) : Exact :=
  match v.toModel.unpack with
  | .notANumber => .notANumber
  | .infinity s => .infinite (s == .negative)
  | .zero s => .finite (s == .negative) 0 0
  | .finite s m e _ => .finite (s == .negative) m e

/-- Drop low bits of a long significand, and set its last bit when any dropped bit was set. At least
sixty-four bits stay, so the nearest float is the same. -/
def shorten (m : Nat) : Nat × Nat :=
  let k := m.log2 - 63
  let q := m >>> k
  (if q <<< k = m then q else q ||| 1, k)

def nearest (negative : Bool) (m : Nat) (e : Int) : Float :=
  let (q, k) := shorten m
  .ofModel (pack (.round .binary64 (if negative then .negative else .positive) q (e + k)))

def signed (negative : Bool) (n : Nat) : Int :=
  if negative then -(n : Int) else n

/-- The least integer that is not below the value. -/
def ceil : Exact → Except ArithmeticError Int
  | .notANumber => .error .undefinedInteger
  | .infinite _ => .error .infiniteInteger
  | .finite negative m e =>
    let k := (-e).toNat
    let q := (m <<< e.toNat) >>> k
    if q <<< k = m <<< e.toNat || negative then .ok (signed negative q) else .ok (signed negative (q + 1))

def round : Exact → Except ArithmeticError Int
  | .notANumber => .error .undefinedInteger
  | .infinite _ => .error .infiniteInteger
  | .finite negative m e =>
    let k := (-e).toNat
    let whole := m <<< e.toNat
    let q := whole >>> k
    let rest := 2 * (whole - q <<< k)
    let up := 1 <<< k < rest || (1 <<< k = rest && q % 2 = 1)
    .ok (signed negative (if up then q + 1 else q))

end Exact

def infinity : Float := 1 / 0

def notANumber : Float := 0 / 0

def signedZero (negative : Bool) : Float :=
  if negative then -0.0 else 0.0

def isNegative (v : Float) : Bool :=
  match Exact.ofFloat v with
  | .notANumber => false
  | .infinite negative => negative
  | .finite negative _ _ => negative

/-- Every significand that has at most sixty-four bits is kept whole. -/
theorem Exact.shorten_small {m : Nat} (h : m.log2 ≤ 63) : shorten m = (m, 0) := by
  have hk : m.log2 - 63 = 0 := by omega
  simp [shorten, hk]

end WireCut
