import WireCut.Playback.Basic
import WireCut.Text.Line

/-! The program editor: its text, its cursor, and the lines that it marks as executing. Lines are counted from
zero, and columns and positions count characters. -/
namespace WireCut

structure Selection where
  position : Nat
  color : String
deriving DecidableEq

/-- An editor. The marked lines are in increasing order, `selections` is what is shown of them and of the line
of the cursor, and `margin` is the room on the left, if any is kept. -/
structure Editor where
  text : String
  anchor : Nat
  position : Nat
  readOnly : Bool
  marked : List Nat
  markColor : String
  selections : List Selection
  margin : Option Nat
  firstVisible : Int
  width : Int
  height : Int
  gutterWidth : Int
  gutterHeight : Int
deriving DecidableEq

def insertLine (n : Nat) : List Nat → List Nat
  | [] => [n]
  | m :: ms => if n < m then n :: m :: ms else if n = m then m :: ms else m :: insertLine n ms

namespace Editor

def cursorColor : String := "#44475a"

def lineCount (e : Editor) : Nat :=
  Text.lineCount e.text.toList

def lineOf (cs : List Char) (position : Nat) : Nat :=
  (cs.take position).count '\n'

def lineStart : Nat → List Char → Nat
  | 0, _ => 0
  | _ + 1, [] => 0
  | n + 1, c :: cs => 1 + lineStart (if c = '\n' then n else n + 1) cs

def cursorLine (e : Editor) : Nat :=
  lineOf e.text.toList e.position

def numberWidth (e : Editor) : Nat :=
  3 + 8 * (Decimal.digitText (max 1 e.lineCount)).length

def fitMargin (e : Editor) : Editor :=
  { e with margin := some e.numberWidth }

def empty : Editor :=
  fitMargin
    { text := "", anchor := 0, position := 0, readOnly := false, marked := [], markColor := "#1e3a8a",
      selections := [], margin := none, firstVisible := 0, width := 0, height := 0, gutterWidth := 0,
      gutterHeight := 0 }

/-- The selection of the line of the cursor. It is not shown beside selected text, or if the text cannot be
changed. -/
def cursorSelection (e : Editor) : List Selection :=
  if e.readOnly || e.anchor ≠ e.position then [] else [⟨e.position, cursorColor⟩]

def markSelections (e : Editor) : List Selection :=
  let cs := e.text.toList
  (e.marked.filter (· < Text.lineCount cs)).map fun line => ⟨lineStart line cs, e.markColor⟩

/-- The lines that have a background color, in the order in which the colors are laid on. A selection that was
made for another text keeps its position, and not its line. -/
def coloredLines (e : Editor) : List (Nat × String) :=
  let cs := e.text.toList
  e.selections.map fun s => (lineOf cs s.position, s.color)

def refresh (e : Editor) : Editor :=
  { e with selections := e.cursorSelection ++ e.markSelections }

def select (e : Editor) (anchor position : Nat) : Editor :=
  if e.anchor = anchor && e.position = position then e else refresh { e with anchor, position }

def setText (e : Editor) (text : String) : Editor :=
  let next := { e with text, anchor := 0, position := 0, firstVisible := 0 }
  if next.lineCount = e.lineCount then next else next.fitMargin

def setMarkColor (e : Editor) (color : String) : Editor :=
  refresh { e with markColor := color }

def setReadOnly (e : Editor) (readOnly : Bool) : Editor :=
  refresh { e with readOnly }

/-- Change the marks. A new mark takes the cursor to its line, and a line that the text does not have is not
marked. The answer is the line that now executes, with minus one for none. -/
def applyMark (e : Editor) : MarkChange → Editor × Option Int
  | .mark line =>
    if 0 ≤ line && line < e.lineCount then
      let start := lineStart line.toNat e.text.toList
      (refresh { e with marked := insertLine line.toNat e.marked, anchor := start, position := start }, some line)
    else (e, none)
  | .unmark line => (refresh { e with marked := e.marked.filter fun (m : Nat) => (m : Int) ≠ line }, none)
  | .unmarkAll => (refresh { e with marked := [] }, some (-1))

end Editor

end WireCut
