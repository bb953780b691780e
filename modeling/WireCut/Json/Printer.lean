import WireCut.Json.Value
import WireCut.Number.Decimal

/-! The text of a JSON value. It is pure ASCII, with two blanks of indentation for each level, and floats
are in their shortest form. -/
namespace WireCut

namespace Json

def floatLayout : Decimal.Layout := { Decimal.plain with infinite := "Infinity", notANumber := "NaN" }

def hexDigit (n : Nat) : Char :=
  Char.ofNat (if n < 10 then 0x30 + n else 0x57 + n)

def unitEscape (n : Nat) : List Char :=
  ['\\', 'u', hexDigit (n / 0x1000), hexDigit (n / 0x100 % 0x10), hexDigit (n / 0x10 % 0x10),
    hexDigit (n % 0x10)]

/-- A character inside a string. Quotes, backslashes, controls and all beyond ASCII are escaped, and a
character beyond `2^16` becomes a surrogate pair. -/
def printChar (n : Nat) : List Char :=
  if n = 0x22 then ['\\', '"']
  else if n = 0x5c then ['\\', '\\']
  else if n = 0x0a then ['\\', 'n']
  else if n = 0x0d then ['\\', 'r']
  else if n = 0x09 then ['\\', 't']
  else if n = 0x0c then ['\\', 'f']
  else if n = 0x08 then ['\\', 'b']
  else if 0x20 ≤ n && n ≤ 0x7e then [Char.ofNat n]
  else if n < 0x10000 then unitEscape n
  else unitEscape (0xd800 + (n - 0x10000) / 0x400) ++ unitEscape (0xdc00 + (n - 0x10000) % 0x400)

def printString (s : CodePoints) : List Char :=
  '"' :: s.flatMap printChar ++ ['"']

def newLine (level : Nat) : List Char :=
  '\n' :: List.replicate (2 * level) ' '

mutual

/-- The text of a value at a level of indentation, before a text that follows it. -/
def print (level : Nat) (after : List Char) : Json → List Char
  | .null => "null".toList ++ after
  | .bool b => (if b then "true" else "false").toList ++ after
  | .int n => (Decimal.intText n).toList ++ after
  | .float v => (floatLayout.float v).toList ++ after
  | .str s => printString s ++ after
  | .arr [] => '[' :: ']' :: after
  | .arr (x :: xs) =>
    '[' :: newLine (level + 1)
      ++ print (level + 1) (printItems (level + 1) (newLine level ++ ']' :: after) xs) x
  | .obj [] => '\x7b' :: '\x7d' :: after
  | .obj ((key, x) :: fields) =>
    '\x7b' :: newLine (level + 1) ++ printString key ++ ':' :: ' '
      :: print (level + 1) (printFields (level + 1) (newLine level ++ '\x7d' :: after) fields) x

def printItems (level : Nat) (after : List Char) : List Json → List Char
  | [] => after
  | x :: xs => ',' :: newLine level ++ print level (printItems level after xs) x

def printFields (level : Nat) (after : List Char) : List (CodePoints × Json) → List Char
  | [] => after
  | (key, x) :: fields =>
    ',' :: newLine level ++ printString key ++ ':' :: ' ' :: print level (printFields level after fields) x

end

def text (j : Json) : String :=
  String.ofList (print 0 [] j)

end Json

end WireCut
