import WireCut.Number.Quantity

/-! JSON values. Integers of any size and floats are kept apart, and the characters of a string are code
points, because an escape may stand for half of a surrogate pair. -/
namespace WireCut

abbrev CodePoints := List Nat

def CodePoints.ofString (s : String) : CodePoints :=
  s.toList.map Char.toNat

/-- A JSON value. The fields of an object keep the order of their first occurrence. -/
inductive Json where
  | null
  | bool (b : Bool)
  | int (n : Int)
  | float (v : Float)
  | str (s : CodePoints)
  | arr (items : List Json)
  | obj (fields : List (CodePoints × Json))

namespace Json

inductive Container where
  | array
  | object
deriving DecidableEq

def Container.name : Container → String
  | .array => "array"
  | .object => "object"

def ofString (s : String) : Json := .str (CodePoints.ofString s)

def quantity? : Json → Option Quantity
  | .bool b => some (.truth b)
  | .int n => some (.whole n)
  | .float v => some (.float v)
  | _ => none

def number? (j : Json) : Option Exact :=
  j.quantity?.map Quantity.exact

mutual

/-- The room that a copy of a value takes: three places for a value without parts, and two for a container
beside the room of its largest part. -/
def room : Json → Nat
  | .arr items => 2 + roomOfItems items
  | .obj fields => 2 + roomOfFields fields
  | _ => 3

def roomOfItems : List Json → Nat
  | [] => 0
  | item :: items => max item.room (roomOfItems items)

def roomOfFields : List (CodePoints × Json) → Nat
  | [] => 0
  | (_, value) :: fields => max (max 3 value.room) (roomOfFields fields)

end

def putField (fields : List (CodePoints × Json)) (key : CodePoints) (value : Json) :
    List (CodePoints × Json) :=
  match fields with
  | [] => [(key, value)]
  | (k, v) :: rest => if k = key then (key, value) :: rest else (k, v) :: putField rest key value

/-- An object from its fields in the order of a text, where the last occurrence of a key gives its value. -/
def ofFields (fields : List (CodePoints × Json)) : Json :=
  .obj (fields.foldl (fun fs field => putField fs field.1 field.2) [])

end Json

end WireCut
