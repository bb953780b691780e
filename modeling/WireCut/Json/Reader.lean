import WireCut.Json.Value
import WireCut.Number.Literal

/-! Reading JSON. Beside the standard values it knows the names of the two infinities and of the value that
is not a number, and it refuses control characters inside strings. -/
namespace WireCut

namespace Json

/-- Why a text is not read: it is no JSON, it has an integer with too many digits, or its containers are nested
too deeply, with the kind of the first one that is too deep. -/
inductive ReadError where
  | malformed
  | longInteger (digits : Nat)
  | tooDeep (container : Container)
deriving DecidableEq

def maxDepth : Nat := 990

def need {α : Type} : Option α → Except ReadError α
  | none => .error .malformed
  | some a => .ok a

def isSpace (c : Char) : Bool :=
  c = ' ' || c = '\t' || c = '\n' || c = '\r'

def skip (cs : List Char) : List Char :=
  cs.dropWhile isSpace

def after? (word : String) (cs : List Char) : Option (List Char) :=
  if word.toList.isPrefixOf cs then some (cs.drop word.length) else none

def digit? (c : Char) : Option Nat :=
  if c.isDigit then some (c.toNat - 0x30) else none

def hexDigit? (c : Char) : Option Nat :=
  if c.isDigit then some (c.toNat - 0x30)
  else if 'a' ≤ c && c ≤ 'f' then some (c.toNat - 0x57)
  else if 'A' ≤ c && c ≤ 'F' then some (c.toNat - 0x37)
  else none

def unit? (a b c d : Char) : Option Nat :=
  match hexDigit? a, hexDigit? b, hexDigit? c, hexDigit? d with
  | some a, some b, some c, some d => some (0x1000 * a + 0x100 * b + 0x10 * c + d)
  | _, _, _, _ => none

def shortEscape? (c : Char) : Option Nat :=
  match c with
  | '"' => some 0x22
  | '\\' => some 0x5c
  | '/' => some 0x2f
  | 'b' => some 0x08
  | 'f' => some 0x0c
  | 'n' => some 0x0a
  | 'r' => some 0x0d
  | 't' => some 0x09
  | _ => none

/-- The characters up to the closing quote, and the text after it. Each half of a surrogate pair is read
alone. -/
def units : List Char → Option (CodePoints × List Char)
  | [] => none
  | '"' :: rest => some ([], rest)
  | '\\' :: 'u' :: a :: b :: c :: d :: rest =>
    match unit? a b c d, units rest with
    | some n, some (s, after) => some (n :: s, after)
    | _, _ => none
  | '\\' :: e :: rest =>
    match shortEscape? e, units rest with
    | some n, some (s, after) => some (n :: s, after)
    | _, _ => none
  | c :: rest =>
    if c.toNat < 0x20 then none
    else match units rest with
      | some (s, after) => some (c.toNat :: s, after)
      | none => none

/-- Join each high surrogate with the low one that follows it. A lone one stays. -/
def joinSurrogates : CodePoints → CodePoints
  | high :: low :: rest =>
    if 0xd800 ≤ high && high < 0xdc00 && 0xdc00 ≤ low && low < 0xe000 then
      (0x10000 + (high - 0xd800) * 0x400 + (low - 0xdc00)) :: joinSurrogates rest
    else high :: joinSurrogates (low :: rest)
  | s => s

def readString (cs : List Char) : Option (CodePoints × List Char) :=
  (units cs).map fun (s, rest) => (joinSurrogates s, rest)

/-- The digits of an integer. A zero stands alone. -/
def wholePart? : List Char → Option (List Nat × List Char)
  | '0' :: rest => some ([0], rest)
  | cs =>
    match Literal.digitRun digit? cs with
    | ([], _) => none
    | (ds, rest) => some (ds, rest)

def fractionPart? : List Char → Option (List Nat × List Char)
  | '.' :: cs =>
    match Literal.digitRun digit? cs with
    | ([], _) => none
    | (ds, rest) => some (ds, rest)
  | _ => none

def readNumber (cs : List Char) : Except ReadError (Json × List Char) :=
  let (negative, signless) := match cs with
    | '-' :: rest => (true, rest)
    | _ => (false, cs)
  match wholePart? signless with
  | none => .error .malformed
  | some (whole, afterWhole) =>
    match fractionPart? afterWhole with
    | some (fraction, afterFraction) =>
      let (exponent, rest) := (Literal.exponentPart? digit? afterFraction).getD (0, afterFraction)
      .ok (.float (Literal.toFloat ⟨negative, whole, fraction, exponent⟩), rest)
    | none =>
      match Literal.exponentPart? digit? afterWhole with
      | some (exponent, rest) => .ok (.float (Literal.toFloat ⟨negative, whole, [], exponent⟩), rest)
      | none =>
        if Literal.maxIntegerDigits < whole.length then .error (.longInteger whole.length)
        else .ok (.int (Exact.signed negative (Literal.ofDigits whole)), afterWhole)

def wordValues : List (String × Json) :=
  [("null", .null), ("true", .bool true), ("false", .bool false), ("NaN", .float notANumber),
    ("Infinity", .float infinity), ("-Infinity", .float (-infinity))]

def readWord (cs : List Char) : Option (Json × List Char) :=
  wordValues.findSome? fun (word, value) => (after? word cs).map fun rest => (value, rest)

mutual

/-- The value that a text begins with, and the text after it, with a number of containers that may still be
opened. -/
def readValue : Nat → Nat → List Char → Except ReadError (Json × List Char)
  | 0, _, _ => .error .malformed
  | fuel + 1, depth, cs =>
    match depth, cs with
    | _, '"' :: rest => (need (readString rest)).map fun (s, after) => (.str s, after)
    | 0, '[' :: _ => .error (.tooDeep .array)
    | depth + 1, '[' :: rest =>
      match skip rest with
      | ']' :: after => .ok (.arr [], after)
      | first => (readItems fuel depth first).map fun (items, after) => (.arr items, after)
    | 0, '\x7b' :: _ => .error (.tooDeep .object)
    | depth + 1, '\x7b' :: rest =>
      match skip rest with
      | '\x7d' :: after => .ok (.obj [], after)
      | first => (readFields fuel depth first).map fun (fields, after) => (ofFields fields, after)
    | _, _ =>
      match readWord cs with
      | some word => .ok word
      | none => readNumber cs

def readItems : Nat → Nat → List Char → Except ReadError (List Json × List Char)
  | 0, _, _ => .error .malformed
  | fuel + 1, depth, cs =>
    match readValue fuel depth cs with
    | .error reason => .error reason
    | .ok (value, rest) =>
      match skip rest with
      | ']' :: after => .ok ([value], after)
      | ',' :: next => (readItems fuel depth (skip next)).map fun (items, after) => (value :: items, after)
      | _ => .error .malformed

def readFields : Nat → Nat → List Char → Except ReadError (List (CodePoints × Json) × List Char)
  | 0, _, _ => .error .malformed
  | fuel + 1, depth, cs =>
    match cs with
    | '"' :: rest =>
      match readString rest with
      | none => .error .malformed
      | some (key, afterKey) =>
        match skip afterKey with
        | ':' :: afterColon =>
          match readValue fuel depth (skip afterColon) with
          | .error reason => .error reason
          | .ok (value, afterValue) =>
            match skip afterValue with
            | '\x7d' :: after => .ok ([(key, value)], after)
            | ',' :: next =>
              (readFields fuel depth (skip next)).map fun (fields, after) => ((key, value) :: fields, after)
            | _ => .error .malformed
        | _ => .error .malformed
    | _ => .error .malformed

end

/-- Read a whole text as one value. Every second call takes a character, so twice the length is enough
fuel. -/
def read (cs : List Char) : Except ReadError Json :=
  match readValue (2 * cs.length + 2) maxDepth (skip cs) with
  | .ok (value, rest) => if (skip rest).isEmpty then .ok value else .error .malformed
  | .error reason => .error reason

end Json

end WireCut
