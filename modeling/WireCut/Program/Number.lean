import WireCut.Number.Exact
import WireCut.Number.Literal
import WireCut.Text.Blank

/-! The number that a parameter begins with. -/
namespace WireCut

def infinityWord : List Char := "Infinity".toList

/-- Read the longest decimal literal that a text begins with, or else the word for infinity with an
optional sign. Blanks in front are skipped, and any other text is not a number. -/
def readNumber (cs : List Char) : Float :=
  let text := Text.trimLeft cs
  match Literal.scan? Text.digitValue? text with
  | some (literal, _) => literal.toFloat
  | none =>
    let (negative, signless) := Literal.sign text
    if infinityWord.isPrefixOf signless then if negative then -infinity else infinity
    else notANumber

end WireCut
