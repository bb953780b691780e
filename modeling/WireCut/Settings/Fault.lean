import WireCut.Settings.Basic

/-! Faults of settings that are noticed only in use. A profile may have any value for a setting that is no
limit, and the first computation with an unsuitable one fails. -/
namespace WireCut

inductive JsonKind where
  | null
  | bool
  | int
  | float
  | str
  | arr
  | obj
deriving DecidableEq

def JsonKind.name : JsonKind → String
  | .null => "NoneType"
  | .bool => "bool"
  | .int => "int"
  | .float => "float"
  | .str => "str"
  | .arr => "list"
  | .obj => "dict"

def Json.kind : Json → JsonKind
  | .null => .null
  | .bool _ => .bool
  | .int _ => .int
  | .float _ => .float
  | .str _ => .str
  | .arr _ => .arr
  | .obj _ => .obj

/-- Why a setting cannot be used: a number is too large, a value is no number, two values cannot be divided,
multiplied or compared, a text or an array cannot be repeated so often or not at all, or an option was given no
value. -/
inductive SettingFault where
  | arithmetic (reason : ArithmeticError)
  | notReal (kind : JsonKind)
  | notConvertible (kind : JsonKind)
  | notDivisible (kind : JsonKind)
  | notMultipliable (factor scale : JsonKind)
  | brokenRepetition
  | longRepetition
  | longText
  | outOfMemory
  | notOrdered (limit value : JsonKind)
  | noPreset
  | noLogLevel
deriving DecidableEq

def SettingFault.message : SettingFault → String
  | .arithmetic reason => reason.message
  | .notReal kind => "must be real number, not " ++ kind.name
  | .notConvertible kind => "float() argument must be a string or a real number, not '" ++ kind.name ++ "'"
  | .notDivisible kind => "unsupported operand type(s) for /: '" ++ kind.name ++ "' and 'int'"
  | .notMultipliable factor scale =>
    "unsupported operand type(s) for *: '" ++ factor.name ++ "' and '" ++ scale.name ++ "'"
  | .brokenRepetition => "can't multiply sequence by non-int of type 'float'"
  | .longRepetition => "cannot fit 'int' into an index-sized integer"
  | .longText => "repeated string is too long"
  | .outOfMemory => ""
  | .notOrdered limit value =>
    "'>' not supported between instances of '" ++ limit.name ++ "' and '" ++ value.name ++ "'"
  | .noPreset => "'list' object has no attribute 'lower'"
  | .noLogLevel => "attribute name must be string, not 'list'"

namespace Profile

def realFault? (fault : JsonKind → SettingFault) (value : Json) : Option SettingFault :=
  match value.quantity? with
  | none => some (fault value.kind)
  | some q => if q.fits then none else some (.arithmetic .tooLarge)

def speedFault? (speed : Json) : Option SettingFault :=
  if speed.kind = .null then none else realFault? .notReal speed

def maxCount : Nat := (1 <<< 63) - 1

def memory : Nat := 1 <<< 36

/-- The bytes of a character in a text: as many as the greatest character of the text needs. -/
def characterWidth (s : CodePoints) : Nat :=
  if s.all (· < 0x100) then 1 else if s.all (· < 0x10000) then 2 else 4

def textFault? (s : CodePoints) (times : Int) : Option SettingFault :=
  if maxCount < times then some .longRepetition
  else if maxCount < s.length * times.toNat then some .longText
  else if memory < s.length * times.toNat * characterWidth s then some .outOfMemory
  else none

/-- The fault of an array that is repeated. An item takes eight bytes. -/
def arrayFault? (items : List Json) (times : Int) : Option SettingFault :=
  if maxCount < times then some .longRepetition
  else if memory < items.length * times.toNat * 8 then some .outOfMemory
  else none

def sizeFault? (size : Json) : Option SettingFault :=
  match size.quantity? with
  | none => some (.notDivisible size.kind)
  | some q => if q.halves then none else some (.arithmetic .quotientTooLarge)

def factorFault? (factor scale : Json) : Option SettingFault :=
  match factor, scale with
  | .int n, .float _ => if (Quantity.whole n).fits then none else some (.arithmetic .tooLarge)
  | .str _, .float _ => some .brokenRepetition
  | .arr _, .float _ => some .brokenRepetition
  | .str s, .int n => textFault? s n
  | .arr items, .int n => arrayFault? items n
  | .null, _ => some (.notMultipliable .null scale.kind)
  | .obj _, _ => some (.notMultipliable .obj scale.kind)
  | _, _ => none

def drawingFault? (p : Profile) (scale : Json) : Option SettingFault :=
  [sizeFault? (p .canvasWidth), sizeFault? (p .canvasHeight),
    factorFault? (p .lineWidthFactor) scale].findSome? id

def sessionFault? (p : Profile) : Option SettingFault :=
  [realFault? .notConvertible (p .scale), speedFault? (p .speed), p.drawingFault? (p .scale)].findSome? id

end Profile

end WireCut
