import WireCut.Editor.Basic

/-! How the editor looks: dark, with a typeface of fixed width. -/
namespace WireCut.Editor

inductive Role where
  | background
  | text
  | selection
  | selectedText
deriving DecidableEq

def color : Role → String
  | .background => "#2b2b2b"
  | .text => "#f8f8f2"
  | .selection => cursorColor
  | .selectedText => "#f8f8f2"

def font : String × Nat := ("Courier New", 11)

def tabWidth : Nat := 4 * 8

end WireCut.Editor
