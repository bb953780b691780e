import WireCut.Diagnostic
import WireCut.Program.Number
import WireCut.Text.Line
import WireCut.Text.UpperCase
import WireCut.Text.Word

/-! Commands of a program. Each line that is neither blank nor a comment is one command: its first word is
the code, and every other word is a letter with a number. -/
namespace WireCut

abbrev Parameters := List (String × Float)

/-- Set a parameter. A later value replaces an earlier one in its place. -/
def Parameters.set (ps : Parameters) (key : String) (value : Float) : Parameters :=
  match ps with
  | [] => [(key, value)]
  | (k, v) :: rest => if k = key then (key, value) :: rest else (k, v) :: Parameters.set rest key value

/-- A line of a program: the text without the blanks around it, the code in capitals, the parameters, and
the number of the line counted from zero. -/
structure Command where
  raw : String
  code : String
  parameters : Parameters
  line : Int
deriving DecidableEq

def Command.value? (c : Command) (key : String) : Option Float :=
  (c.parameters.lookup key).filter (!·.isNaN)

namespace Program
open Text

def commentMark : Char := ';'

def keyOf (w : Word) : String :=
  String.ofList (upper (w.chars.take 1))

def valueOf (w : Word) : Float :=
  readNumber (w.chars.drop 1)

def notANumberWarning (line : Nat) (w : Word) : Diagnostic :=
  ⟨line, w.start, w.stop, "Parameter '" ++ String.ofList w.chars ++ "' is not a number and will be ignored",
    .spelling, .warning⟩

def parametersOf (ws : List Word) : Parameters :=
  ws.foldl (fun ps w => ps.set (keyOf w) (valueOf w)) []

def commandOf (line : List Char) (number : Nat) : Option Command :=
  match words line with
  | [] => none
  | w :: ws =>
    if w.chars.head? = some commentMark then none
    else some ⟨String.ofList (trim line), String.ofList (upper w.chars), parametersOf ws, number⟩

def warningsOf (line : List Char) (number : Nat) : List Diagnostic :=
  match words line with
  | [] => []
  | w :: ws =>
    if w.chars.head? = some commentMark then []
    else (ws.filter fun p => (valueOf p).isNaN).map (notANumberWarning number)

def commands (text : String) : List Command :=
  (lines text.toList).zipIdx.filterMap fun (line, number) => commandOf line number

def warnings (text : String) : List Diagnostic :=
  (lines text.toList).zipIdx.flatMap fun (line, number) => warningsOf line number

end Program

end WireCut
