import WireCut.Text.DecimalDigit

/-! Decimal literals at the start of a text. The scanner takes the longest literal and returns the text
after it. -/
namespace WireCut

structure Literal where
  negative : Bool
  whole : List Nat
  fraction : List Nat
  exponent : Int
deriving DecidableEq

namespace Literal

def ofDigits (ds : List Nat) : Nat :=
  ds.foldl (fun n d => 10 * n + d) 0

def digitRun (digit? : Char → Option Nat) : List Char → List Nat × List Char
  | [] => ([], [])
  | c :: cs =>
    match digit? c with
    | some d => let (ds, rest) := digitRun digit? cs; (d :: ds, rest)
    | none => ([], c :: cs)

def sign : List Char → Bool × List Char
  | '-' :: cs => (true, cs)
  | '+' :: cs => (false, cs)
  | cs => (false, cs)

/-- An exponent mark with its sign and digits. A mark without digits is not part of the literal. -/
def exponentPart? (digit? : Char → Option Nat) : List Char → Option (Int × List Char)
  | [] => none
  | c :: cs =>
    if c = 'e' || c = 'E' then
      let (negative, signless) := sign cs
      match digitRun digit? signless with
      | ([], _) => none
      | (ds, rest) => some (if negative then -(ofDigits ds : Int) else ofDigits ds, rest)
    else none

def mantissaPart (digit? : Char → Option Nat) (cs : List Char) : Option (List Nat × List Nat × List Char) :=
  match digitRun digit? cs with
  | (whole, '.' :: rest) =>
    let (fraction, after) := digitRun digit? rest
    if whole.isEmpty && fraction.isEmpty then none else some (whole, fraction, after)
  | (whole, rest) => if whole.isEmpty then none else some (whole, [], rest)

/-- The longest literal that a text begins with, and the text after it. -/
def scan? (digit? : Char → Option Nat) (cs : List Char) : Option (Literal × List Char) :=
  let (negative, signless) := sign cs
  match mantissaPart digit? signless with
  | none => none
  | some (whole, fraction, afterMantissa) =>
    let (exponent, rest) := (exponentPart? digit? afterMantissa).getD (0, afterMantissa)
    some (⟨negative, whole, fraction, exponent⟩, rest)

def maxIntegerDigits : Nat := 4300

def scaled (negative : Bool) (m : Nat) (e : Int) : Float :=
  let v := Float.ofScientific m (e < 0) e.natAbs
  if negative then -v else v

def toFloat (l : Literal) : Float :=
  scaled l.negative (ofDigits (l.whole ++ l.fraction)) (l.exponent - l.fraction.length)

end Literal

end WireCut
