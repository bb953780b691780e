import WireCut.Number.Exact

/-! Decimal text of floats. The shortest form has the fewest digits that read back as the same float, and
the fixed form rounds the exact binary value to a given number of places. -/
namespace WireCut

structure Decimal where
  digits : Nat
  exponent : Int
deriving DecidableEq

namespace Decimal

def fraction (m : Nat) (e : Int) : Nat × Nat :=
  (m <<< e.toNat, 1 <<< (-e).toNat)

def inUnits (num den : Nat) (k : Int) : Nat × Nat :=
  (num * Nat.pow 10 (-k).toNat, den * Nat.pow 10 k.toNat)

def reaches (num den : Nat) (k : Int) : Bool :=
  let (n, d) := inUnits num den k
  d ≤ n

def climb (num den : Nat) : Nat → Int → Int
  | 0, k => k
  | steps + 1, k => if reaches num den (k + 1) then climb num den steps (k + 1) else k

/-- The greatest `k` such that a positive fraction is at least `10^k`. The binary lengths give a value at
most three below it. -/
def magnitude (num den : Nat) : Int :=
  climb num den 4 ((((num.log2 : Int) - den.log2 - 1) * 30103).fdiv 100000 - 1)

def roundDiv (num den : Nat) : Nat :=
  let q := num / den
  let rest := 2 * (num % den)
  if den < rest || (den = rest && q % 2 = 1) then q + 1 else q

/-- The best multiple of `10^k` among the reals that round to one float, if there is one. The reals lie
between `low` and `high` around `mid`, all over `den`, and the ends belong to them if `closed`. -/
def onGrid (low mid high den : Nat) (closed : Bool) (k : Int) : Option Nat :=
  let unit := (inUnits 1 den k).2
  let scale := (inUnits 1 den k).1
  let q := mid * scale / unit
  let inside (n : Nat) : Bool :=
    if closed then low * scale ≤ n * unit && n * unit ≤ high * scale
    else low * scale < n * unit && n * unit < high * scale
  match inside q, inside (q + 1) with
  | true, true => some (roundDiv (mid * scale) unit)
  | true, false => some q
  | false, true => some (q + 1)
  | false, false => none

def coarsest (low mid high den : Nat) (closed : Bool) : Nat → Int → Decimal
  | 0, k => ⟨roundDiv (inUnits mid den k).1 (inUnits mid den k).2, k⟩
  | steps + 1, k =>
    match onGrid low mid high den closed k with
    | some n => ⟨n, k⟩
    | none => coarsest low mid high den closed steps (k - 1)

/-- The decimal with the fewest digits that rounds to the float `m·2^e`, and the nearest one of those. The
search runs through the powers of ten from the coarsest grid on, and seventeen digits always suffice. -/
def shortest (m : Nat) (e : Int) : Decimal :=
  let (mid, den) := fraction (4 * m) (e - 2)
  let unit := 1 <<< (e - 2).toNat
  let below := if m = 1 <<< 52 && -1074 < e then unit else 2 * unit
  coarsest (mid - below) mid (mid + 2 * unit) den (m % 2 = 0) 18 (magnitude mid den + 1)

def digitText (n : Nat) : String :=
  String.ofList (Nat.toDigits 10 n)

def intText (n : Int) : String :=
  (if n < 0 then "-" else "") ++ digitText n.natAbs

def zeros (n : Nat) : String :=
  String.ofList (List.replicate n '0')

def pointed (digits : Nat) (places : Nat) : String :=
  let ds := (digitText digits).toList
  let padded := List.replicate (places + 1 - ds.length) '0' ++ ds
  let whole := String.ofList (padded.take (padded.length - places))
  if places = 0 then whole else whole ++ "." ++ String.ofList (padded.drop (padded.length - places))

/-- How the shortest form of a float is laid out: from which to below which power of ten it has no
exponent, and the names of the values that have no digits. -/
structure Layout where
  positionalFrom : Int
  positionalBelow : Int
  exponentWidth : Nat
  infinite : String
  notANumber : String

/-- Exponents begin at sixteen digits before the point and at four zeros after it. -/
def plain : Layout := ⟨-4, 16, 2, "inf", "nan"⟩

def exponentText (width : Nat) (k : Int) : String :=
  let ds := digitText k.natAbs
  (if k < 0 then "-" else "+") ++ zeros (width - ds.length) ++ ds

def mantissaText (digits : Nat) : String :=
  match (digitText digits).toList with
  | [] => ""
  | [c] => String.singleton c
  | c :: cs => String.ofList (c :: '.' :: cs)

def Layout.number (layout : Layout) (d : Decimal) : String :=
  let top := (digitText d.digits).length + d.exponent - 1
  if layout.positionalFrom ≤ top && top < layout.positionalBelow then
    if 0 ≤ d.exponent then digitText d.digits ++ zeros d.exponent.toNat ++ ".0"
    else pointed d.digits (-d.exponent).toNat
  else mantissaText d.digits ++ "e" ++ exponentText layout.exponentWidth top

def Layout.float (layout : Layout) (v : Float) : String :=
  match Exact.ofFloat v with
  | .notANumber => layout.notANumber
  | .infinite negative => (if negative then "-" else "") ++ layout.infinite
  | .finite negative m e =>
    (if negative then "-" else "") ++ (if m = 0 then "0.0" else layout.number (shortest m e))

def fixed (places : Nat) (v : Float) : String :=
  match Exact.ofFloat v with
  | .notANumber => "nan"
  | .infinite negative => if negative then "-inf" else "inf"
  | .finite negative m e =>
    let (num, den) := fraction m e
    (if negative then "-" else "") ++ pointed (roundDiv (num * Nat.pow 10 places) den) places

def scientific (digits : Nat) (v : Float) : String :=
  match Exact.ofFloat v with
  | .finite negative m e =>
    let (num, den) := fraction m e
    let top := magnitude num den
    let (n, d) := inUnits num den (top + 1 - digits)
    let q := roundDiv n d
    let (q, top) := if q = Nat.pow 10 digits then (Nat.pow 10 (digits - 1), top + 1) else (q, top)
    (if negative then "-" else "") ++ mantissaText q ++ "e" ++ exponentText 2 top
  | _ => fixed 0 v

end Decimal

end WireCut
