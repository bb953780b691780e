import WireCut.Text.Blank

/-! Words of a line. A word is a maximal run of characters that are not blank, with the column that it
starts in. -/
namespace WireCut.Text

structure Word where
  start : Nat
  chars : List Char
deriving DecidableEq

def Word.stop (w : Word) : Nat :=
  w.start + w.chars.length

/-- The words of a text whose first character has a given column. A character joins the word that starts
right after it. -/
def wordsFrom (column : Nat) : List Char → List Word
  | [] => []
  | c :: cs =>
    let rest := wordsFrom (column + 1) cs
    if isBlank c then rest
    else match rest with
      | [] => [⟨column, [c]⟩]
      | w :: ws => if w.start = column + 1 then ⟨column, c :: w.chars⟩ :: ws else ⟨column, [c]⟩ :: rest

def words (line : List Char) : List Word :=
  wordsFrom 0 line

theorem wordsFrom_blank {column : Nat} {c : Char} {cs : List Char} (h : isBlank c = true) :
    wordsFrom column (c :: cs) = wordsFrom (column + 1) cs := by
  simp [wordsFrom, h]

end WireCut.Text
