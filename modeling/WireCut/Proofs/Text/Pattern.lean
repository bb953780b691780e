import WireCut.Proofs.Text.Search

/-! Patterns as a backtracking matcher reads them. It tries the alternatives of a pattern in their order and lets a repetition
go on for as long as it can before it tries a shorter one. The first way through the pattern that it finds is the match. -/
namespace WireCut.Text

inductive Pattern where
  | empty
  | one (accepts : Char → Bool)
  | many (accepts : Char → Bool)
  | both (first second : Pattern)
  | either (first second : Pattern)

namespace Pattern

def optional (p : Pattern) : Pattern :=
  either p empty

def oneOrMore (accepts : Char → Bool) : Pattern :=
  both (one accepts) (many accepts)

def word : List Char → Pattern
  | [] => empty
  | c :: cs => both (one (· = c)) (word cs)

/-- What is left of a text after each number of repetitions, the greatest one first. -/
def repetitions (accepts : Char → Bool) : List Char → List (List Char)
  | [] => [[]]
  | c :: cs => if accepts c then repetitions accepts cs ++ [c :: cs] else [c :: cs]

/-- What is left of a text after each way through a pattern, in the order in which the ways are tried. -/
def rests : Pattern → List Char → List (List Char)
  | empty, cs => [cs]
  | one _, [] => []
  | one accepts, c :: cs => if accepts c then [cs] else []
  | many accepts, cs => repetitions accepts cs
  | both p q, cs => (p.rests cs).flatMap q.rests
  | either p q, cs => p.rests cs ++ q.rests cs

/-- What is left of a text after the match at its start. -/
def after? (p : Pattern) (cs : List Char) : Option (List Char) :=
  (p.rests cs).head?

/-- The pieces of a text between the matches of a pattern, each of which is looked for behind the one before. A match without
characters is passed over. -/
def pieces (p : Pattern) : List Char → List (List Char)
  | [] => [[]]
  | c :: cs =>
    match p.after? (c :: cs) with
    | some rest => if rest.length ≤ cs.length then [] :: p.pieces rest else (p.pieces cs).modifyHead (c :: ·)
    | none => (p.pieces cs).modifyHead (c :: ·)
termination_by cs => cs.length

variable {p q : Pattern} {accepts : Char → Bool} {cs : List Char}

theorem after?_either : (either p q).after? cs = (p.after? cs).or (q.after? cs) :=
  List.head?_append

theorem after?_optional : (optional p).after? cs = some ((p.after? cs).getD cs) := by
  rw [optional, after?_either]
  cases p.after? cs <;> rfl

/-- A pattern that always has a match need not be tried again. -/
theorem after?_both (h : ∀ rest, q.after? rest ≠ none) : (both p q).after? cs = (p.after? cs).bind q.after? := by
  rw [after?, rests, after?]
  cases p.rests cs with
  | nil => rfl
  | cons rest others =>
    rw [List.flatMap_cons, List.head?_append, ← after?]
    cases hq : q.after? rest with
    | none => exact absurd hq (h rest)
    | some after => exact hq.symm

theorem after?_one {c : Char} : (one accepts).after? (c :: cs) = if accepts c then some cs else none := by
  rw [after?, rests]
  split_ifs <;> rfl

/-- An optional part is tried before the pattern without it. -/
theorem after?_optional_both : (both (optional p) q).after? cs = ((both p q).after? cs).or (q.after? cs) := by
  rw [after?, rests, optional, rests, rests, List.flatMap_append, List.flatMap_singleton]
  exact List.head?_append

theorem after?_one_both : (both (one accepts) q).after? cs = ((one accepts).after? cs).bind q.after? := by
  cases cs with
  | nil => rfl
  | cons c cs =>
    rw [after?_one, after?, rests, rests]
    split_ifs
    · rw [List.flatMap_cons, List.flatMap_nil, List.append_nil]
      rfl
    · rfl

theorem after?_many : (many accepts).after? cs = some (cs.dropWhile accepts) := by
  rw [after?, rests]
  induction cs with
  | nil => rfl
  | cons c cs ih =>
    rw [repetitions, List.dropWhile_cons]
    split_ifs with hc
    · rw [List.head?_append, ih]
      rfl
    · rfl

theorem after?_oneOrMore : (oneOrMore accepts).after? cs = ((one accepts).after? cs).map (List.dropWhile accepts) := by
  rw [oneOrMore, after?_one_both, Option.map_eq_bind]
  exact Option.bind_congr fun rest _ => after?_many

theorem after?_word {w : List Char} : (word w).after? cs = if w.isPrefixOf cs then some (cs.drop w.length) else none := by
  induction w generalizing cs with
  | nil => rfl
  | cons c w ih =>
    rw [word, after?_one_both]
    cases cs with
    | nil => rfl
    | cons d cs =>
      rw [after?_one, List.isPrefixOf]
      by_cases hd : d = c
      · rw [if_pos (decide_eq_true hd), Option.bind_some, ih, hd, beq_self_eq_true, Bool.true_and]
        rfl
      · rw [if_neg (mt of_decide_eq_true hd), Option.bind_none, beq_false_of_ne (Ne.symm hd)]
        rfl

end Pattern

open Pattern

def blanks : Pattern :=
  oneOrMore isBlank

private theorem after?_blanks {c : Char} {rest : List Char} :
    blanks.after? (c :: rest) = if isBlank c then some (trimLeft rest) else none := by
  rw [blanks, after?_oneOrMore, after?_one]
  split_ifs <;> rfl

private theorem pieces_blank {c : Char} (h : isBlank c = true) (rest : List Char) :
    blanks.pieces (c :: rest) = [] :: blanks.pieces (trimLeft rest) := by
  rw [pieces, after?_blanks, if_pos h]
  exact if_pos (List.length_dropWhile_le isBlank rest)

private theorem pieces_run {chars : List Char} (h : ∀ c ∈ chars, isBlank c = false) (rest : List Char) :
    blanks.pieces (chars ++ rest) = (blanks.pieces rest).modifyHead (chars ++ ·) := by
  induction chars with
  | nil => exact (congrFun List.modifyHead_id _).symm
  | cons c chars ih =>
    have hc : ¬ isBlank c = true := by simp [h c List.mem_cons_self]
    rw [List.cons_append, pieces, after?_blanks, if_neg hc]
    dsimp only
    rw [ih fun d hd => h d (List.mem_cons_of_mem c hd), List.modifyHead_modifyHead]
    rfl

private theorem getLast?_of_cons {a c : Char} {rest : List Char} (h : c ∈ rest.getLast?) : c ∈ (a :: rest).getLast? := by
  rw [List.getLast?_cons, Option.mem_def.mp h]
  rfl

/-- A text that does not end with a blank is cut into its runs, once the blanks that it begins with are gone. -/
private theorem pieces_eq_runs {text : List Char} (hne : trimLeft text ≠ [])
    (hlast : ∀ c ∈ text.getLast?, isBlank c = false) : blanks.pieces (trimLeft text) = runs text := by
  induction text using line_induction with
  | nil => exact absurd rfl hne
  | blank c rest hc ih =>
    rw [trimLeft, List.dropWhile_cons_of_pos hc] at hne ⊢
    rw [runs_blank hc]
    exact ih hne fun d hd => hlast d (getLast?_of_cons hd)
  | run chars rest hrun hrest ih =>
    obtain ⟨c, cs, hchars, hc⟩ := hrun.eq_cons
    have hfront : trimLeft (chars ++ rest) = chars ++ rest := by
      rw [hchars]
      exact List.dropWhile_cons_of_neg (by simp [hc])
    rw [hfront, pieces_run hrun.solid, runs_run hrun hrest]
    obtain rfl | ⟨b, rest, rfl, hb⟩ := hrest.eq_nil_or_cons
    · rw [pieces, List.modifyHead_cons, List.append_nil, runs_nil]
    · have hend (d : Char) (hd : d ∈ (b :: rest).getLast?) : isBlank d = false := by
        refine hlast d ?_
        rw [List.getLast?_append, Option.mem_def.mp hd]
        rfl
      -- the text goes on behind the blank, since it does not end with one
      have hmore : trimLeft (b :: rest) ≠ [] := by
        intro hnil
        have hlastb := List.getLast_mem (List.cons_ne_nil b rest)
        have hblank := List.dropWhile_eq_nil_iff.mp hnil _ hlastb
        rw [hend _ (List.getLast?_eq_getLast_of_ne_nil (List.cons_ne_nil b rest))] at hblank
        cases hblank
      rw [pieces_blank hb, List.modifyHead_cons, List.append_nil, ← ih hmore hend, trimLeft, trimLeft,
        List.dropWhile_cons_of_pos hb]

/-- The words of a line are the pieces between the blanks of the line without those around it. -/
theorem words_eq_pieces (line : List Char) :
    (words line).map Word.chars = if trim line = [] then [] else blanks.pieces (trim line) := by
  rw [words_chars, ← runs_trim]
  split_ifs with hnil
  · rw [hnil, runs_nil]
  · have hpieces := pieces_eq_runs ((trimLeft_trim line).trans_ne hnil) fun c hc => trim_ends (.inr hc)
    rw [← hpieces, trimLeft_trim]

end WireCut.Text
