import WireCut.Text.Blank
import WireCut.Text.UpperCase

/-! Coloring of a program line. A comment has one color from its mark to the end of the line, and otherwise
each run of characters has a color, the first by its code and the others by their letter. -/
namespace WireCut

inductive Style where
  | cut
  | arc
  | mode
  | finish
  | unknown
  | x
  | y
  | center
  | other
  | comment
deriving DecidableEq

namespace Style

def color : Style → String
  | .cut => "#51cf66"
  | .arc => "#ffd43b"
  | .mode => "#74c0fc"
  | .finish => "#ff8cc8"
  | .unknown => "#868e96"
  | .x => "#ff9999"
  | .y => "#99ff99"
  | .center => "#cc99ff"
  | .other => "#99ffcc"
  | .comment => "#6c757d"

def bold (s : Style) : Bool :=
  s = .cut || s = .arc

def italic (s : Style) : Bool :=
  s = .comment

def ofCode (code : String) : Style :=
  match code with
  | "G01" => .cut
  | "G02" => .arc
  | "G03" => .arc
  | "G90" => .mode
  | "G91" => .mode
  | "G92" => .mode
  | "M02" => .finish
  | _ => .unknown

def ofLetter (letter : String) : Style :=
  match letter with
  | "X" => .x
  | "Y" => .y
  | "I" => .center
  | "J" => .center
  | _ => .other

end Style

structure Highlight where
  start : Nat
  length : Nat
  style : Style
deriving DecidableEq

namespace Highlight
open Text

/-- A run of characters that is being collected: its first column and its characters, the last one first. -/
abbrev OpenRun := Nat × List Char

def runs (column : Nat) (openRun? : Option OpenRun) : List Char → List (Nat × List Char)
  | [] => (openRun?.map fun (start, chars) => (start, chars.reverse)).toList
  | c :: cs =>
    if isBlank c then
      (openRun?.map fun (start, chars) => (start, chars.reverse)).toList ++ runs (column + 1) none cs
    else match openRun? with
      | none => runs (column + 1) (some (column, [c])) cs
      | some (start, chars) => runs (column + 1) (some (start, c :: chars)) cs

def ofRun (first : Bool) (start : Nat) (chars : List Char) : Highlight :=
  ⟨start, chars.length,
    if first then Style.ofCode (String.ofList (upper chars))
    else Style.ofLetter (String.ofList (upper (chars.take 1)))⟩

def ofLine (line : List Char) : List Highlight :=
  let stripped := trimLeft line
  let indent := line.length - stripped.length
  match stripped with
  | [] => []
  | ';' :: _ => [⟨indent, stripped.length, .comment⟩]
  | _ =>
    match runs 0 none line with
    | [] => []
    | (start, chars) :: rest => ofRun true start chars :: rest.map fun (start, chars) => ofRun false start chars

end Highlight

end WireCut
