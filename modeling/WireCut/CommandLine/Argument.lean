import WireCut.Number.Exact
import WireCut.Number.Literal
import WireCut.Text.Blank

/-! Numbers on the command line. Blanks around a number are skipped, an underscore may stand between two
digits, and nothing else may follow the number. -/
namespace WireCut.Argument

/-- Whether a character may surround a number. The separator controls may not. -/
def isBlank (c : Char) : Bool :=
  Text.isBlank c && !(0x1c ≤ c.toNat && c.toNat ≤ 0x1f)

def trim (cs : List Char) : List Char :=
  (((cs.dropWhile isBlank).reverse).dropWhile isBlank).reverse

/-- Remove the underscores of a text in which each of them stands between two digits. -/
def dropUnderscores? : List Char → Option (List Char)
  | [] => some []
  | [c] => if c = '_' then none else some [c]
  | c :: d :: rest =>
    if c = '_' then none
    else if d = '_' then
      if Text.isDecimalDigit c && rest.head?.any Text.isDecimalDigit then (dropUnderscores? rest).map (c :: ·)
      else none
    else (dropUnderscores? (d :: rest)).map (c :: ·)

def digitsOf? (text : String) : Option (List Char) :=
  dropUnderscores? (trim text.toList)

def int? (text : String) : Option Int :=
  (digitsOf? text).bind fun cs =>
    let (negative, signless) := Literal.sign cs
    match Literal.digitRun Text.digitValue? signless with
    | ([], _) => none
    | (ds, []) =>
      if Literal.maxIntegerDigits < ds.length then none
      else some (Exact.signed negative (Literal.ofDigits ds))
    | _ => none

def wordValue? (cs : List Char) : Option Float :=
  let word := String.ofList (cs.map Char.toLower)
  if word = "inf" || word = "infinity" then some infinity
  else if word = "nan" then some notANumber
  else none

def float? (text : String) : Option Float :=
  (digitsOf? text).bind fun cs =>
    match Literal.scan? Text.digitValue? cs with
    | some (literal, []) => some literal.toFloat
    | some _ => none
    | none =>
      let (negative, signless) := Literal.sign cs
      (wordValue? signless).map fun v => if negative then -v else v

/-- Whether a text is a minus with digits, or a minus with a point that digits follow. A line feed may end
it. -/
def isNegativeNumber (cs : List Char) : Bool :=
  match cs with
  | '-' :: rest =>
    let body := if rest.getLast? = some '\n' then rest.dropLast else rest
    match Literal.digitRun Text.digitValue? body with
    | (whole, []) => !whole.isEmpty
    | (_, '.' :: fraction) => !fraction.isEmpty && fraction.all Text.isDecimalDigit
    | _ => false
  | _ => false

end WireCut.Argument
