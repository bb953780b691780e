import Mathlib.Data.List.Infix
import WireCut.Proofs.Text.Run

/-! The search for the runs of a line. The runs are looked for one after another in the line without the blanks
around it, each from the end of the one before, and the indentation of the line is added to what is found. Between
two runs there are only blanks, so a run that repeats an earlier one, or is a part of it, is still found at its own
place. -/
namespace WireCut.Text

def indentation (line : List Char) : Nat :=
  line.length - (trimLeft line).length

def indexFrom? (part text : List Char) (offset : Nat) : Option Nat :=
  ((text.drop offset).tails.findIdx? part.isPrefixOf).map (offset + ·)

/-- Look for parts in a text, each from the end of the one before. The search fails with the first part that is
not found. -/
def locate? (text : List Char) (offset : Nat) : List (List Char) → Option (List Word)
  | [] => some []
  | part :: parts => do
    let start ← indexFrom? part text offset
    let ws ← locate? text (start + part.length) parts
    return ⟨start, part⟩ :: ws

private theorem words_of_blank {gap : List Char} (h : ∀ c ∈ gap, isBlank c = true) : words gap = [] := by
  rw [← List.map_eq_nil_iff (f := Word.chars), words_chars, runs_eq_iff]
  exact .gap h

theorem words_eq_nil_iff {line : List Char} : words line = [] ↔ ∀ c ∈ line, isBlank c = true := by
  refine ⟨fun h => ?_, words_of_blank⟩
  have hruns := words_chars line
  rw [h] at hruns
  have happart := runs_eq_iff.mp hruns.symm
  cases happart with
  | gap blank => exact blank

theorem words_gap {gap : List Char} (h : ∀ c ∈ gap, isBlank c = true) (line : List Char) :
    words (gap ++ line) = (words line).map (Word.shift gap.length) := by
  induction gap with
  | nil => simp
  | cons c gap ih =>
    rw [List.cons_append, words_blank (h c List.mem_cons_self), ih fun d hd => h d (List.mem_cons_of_mem c hd),
      List.map_map]
    refine List.map_congr_left fun w _ => ?_
    rw [Function.comp_apply, Word.shift_shift, List.length_cons, Nat.add_comm]

private theorem words_append_gap {gap : List Char} (h : ∀ c ∈ gap, isBlank c = true) (line : List Char) :
    words (line ++ gap) = words line := by
  induction line using line_induction with
  | nil => exact words_of_blank h
  | blank c rest hc ih => rw [List.cons_append, words_blank hc, words_blank hc, ih]
  | run chars rest hrun hrest ih =>
    have hparted : Parted (rest ++ gap) := by
      by_cases hnil : rest = []
      · exact hnil ▸ fun c hc => h c (List.mem_of_mem_head? hc)
      · exact hrest.append hnil gap
    rw [List.append_assoc, words_run hrun hparted, words_run hrun hrest, ih]

theorem trimLeft_eq (line : List Char) :
    ∃ gap, (∀ c ∈ gap, isBlank c = true) ∧ line = gap ++ trimLeft line :=
  ⟨line.takeWhile isBlank, fun _ hc => List.mem_takeWhile_imp hc, List.takeWhile_append_dropWhile.symm⟩

theorem trimLeft_head {line : List Char} {c : Char} (h : c ∈ (trimLeft line).head?) : isBlank c = false := by
  have := List.head?_dropWhile_not isBlank line
  rwa [show (line.dropWhile isBlank).head? = some c from h] at this

/-- The first word begins where the blanks that a line begins with end. -/
theorem words_head (line : List Char) : ((words line).head?.bind fun w => w.chars.head?) = (trimLeft line).head? := by
  induction line using line_induction with
  | nil => rfl
  | blank c rest hc ih =>
    rw [words_blank hc, List.head?_map, Option.bind_map, trimLeft, List.dropWhile_cons_of_pos hc]
    exact ih
  | run chars rest hrun hrest _ =>
    obtain ⟨c, cs, rfl, hc⟩ := hrun.eq_cons
    rw [words_run hrun hrest, trimLeft, List.cons_append, List.dropWhile_cons_of_neg (by simp [hc])]
    rfl

/-- A line is its indentation, the text without the blanks around it, and blanks behind. -/
theorem trim_eq (line : List Char) :
    ∃ before behind, line = before ++ (trim line ++ behind) ∧ before.length = indentation line ∧
      (∀ c ∈ before, isBlank c = true) ∧ ∀ c ∈ behind, isBlank c = true := by
  obtain ⟨before, hbefore, hline⟩ := trimLeft_eq line
  obtain ⟨behind, hbehind, htext⟩ := trimLeft_eq (trimLeft line).reverse
  refine ⟨before, behind.reverse, ?_, ?_, hbefore, fun c hc => hbehind c (List.mem_reverse.mp hc)⟩
  · have := congrArg List.reverse htext
    rw [List.reverse_reverse, List.reverse_append] at this
    rw [trim, ← this]
    exact hline
  · have := congrArg List.length hline
    rw [List.length_append] at this
    rw [indentation]
    omega

/-- A text without the blanks around it neither begins nor ends with a blank. -/
theorem trim_ends {line : List Char} {c : Char} (h : c ∈ (trim line).head? ∨ c ∈ (trim line).getLast?) :
    isBlank c = false := by
  rcases h with h | h
  · obtain ⟨behind, -, htext⟩ := trimLeft_eq (trimLeft line).reverse
    have := congrArg List.reverse htext
    rw [List.reverse_reverse, List.reverse_append] at this
    have hhead : c ∈ (trimLeft line).head? := by
      rw [this, List.head?_append, show (trimLeft (trimLeft line).reverse).reverse = trim line from rfl,
        Option.mem_def.mp h]
      rfl
    exact trimLeft_head hhead
  · rw [trim, List.getLast?_reverse] at h
    exact trimLeft_head h

/-- The words of a line are those of its text, moved by the indentation. -/
private theorem words_trim (line : List Char) : words line = (words (trim line)).map (Word.shift (indentation line)) := by
  obtain ⟨before, behind, hline, hlength, hbefore, hbehind⟩ := trim_eq line
  rw [← hlength, ← words_append_gap hbehind (trim line), ← words_gap hbefore, ← hline]

theorem trimLeft_trim (line : List Char) : trimLeft (trim line) = trim line := by
  cases htext : trim line with
  | nil => rfl
  | cons c rest =>
    have hc : isBlank c = false := trim_ends (.inl (show c ∈ (trim line).head? by rw [htext]; rfl))
    exact List.dropWhile_cons_of_neg (by simp [hc])

/-- A line begins with the same character as its text, but for blanks. -/
theorem trim_head (line : List Char) : (trim line).head? = (trimLeft line).head? := by
  rw [← trimLeft_trim, ← words_head, ← words_head line, words_trim line, List.head?_map, Option.bind_map]
  rfl

theorem runs_trim (line : List Char) : runs (trim line) = runs line := by
  rw [← words_chars, ← words_chars, words_trim line, List.map_map]
  rfl

/-- A run is found behind the blanks in front of it: at none of them does the text go on with the run. -/
private theorem indexFrom?_run {chars : List Char} (h : IsRun chars) (before : List Char) {gap : List Char}
    (hgap : ∀ c ∈ gap, isBlank c = true) (behind : List Char) :
    indexFrom? chars (before ++ (gap ++ (chars ++ behind))) before.length = some (before.length + gap.length) := by
  obtain ⟨c, cs, rfl, hc⟩ := h.eq_cons
  rw [indexFrom?, List.drop_left]
  have hfind : (gap ++ (c :: cs ++ behind)).tails.findIdx? (c :: cs).isPrefixOf = some gap.length := by
    induction gap with
    | nil => simp [List.findIdx?_cons, List.isPrefixOf_iff_prefix]
    | cons d gap ih =>
      have hne : (c == d) = false := by
        rw [beq_eq_false_iff_ne]
        rintro rfl
        rw [hgap c List.mem_cons_self] at hc
        cases hc
      rw [List.cons_append, List.tails_cons, List.findIdx?_cons, ih fun e he => hgap e (List.mem_cons_of_mem d he)]
      simp [List.isPrefixOf, hne]
  rw [hfind]
  rfl

/-- The search from the end of a word, with blanks up to the rest of the line, finds the words of the rest. -/
private theorem locate?_runs (before gap : List Char) (hgap : ∀ c ∈ gap, isBlank c = true) (line : List Char) :
    locate? (before ++ (gap ++ line)) before.length (runs line) =
      some ((words line).map (Word.shift (before.length + gap.length))) := by
  induction line using line_induction generalizing before gap with
  | nil => rfl
  | blank c rest hc ih =>
    have := ih before (gap ++ [c]) (by simpa [or_imp, forall_and] using ⟨hgap, hc⟩)
    rw [List.append_assoc, List.singleton_append] at this
    rw [runs_blank hc, this, words_blank hc, List.map_map]
    refine congrArg some (List.map_congr_left fun w _ => ?_)
    rw [Function.comp_apply, Word.shift_shift, List.length_append, Nat.add_assoc]
    rfl
  | run chars rest hrun hrest ih =>
    have := ih (before ++ (gap ++ chars)) [] nofun
    simp only [List.nil_append, List.append_assoc, List.length_append, List.length_nil, Nat.add_zero] at this
    rw [runs_run hrun hrest, words_run hrun hrest, locate?, indexFrom?_run hrun before hgap rest,
      Option.bind_eq_bind, Option.bind_some, Nat.add_assoc, this, List.map_cons, List.map_map]
    refine congrArg some (congrArg₂ List.cons rfl (List.map_congr_left fun w _ => ?_))
    rw [Function.comp_apply, Word.shift_shift, Nat.add_assoc]

/-- The runs behind the first one are found in the text of a line, at the places of their words less the
indentation. -/
theorem locate?_trim {line first : List Char} {later : List (List Char)} (h : runs line = first :: later) :
    ∃ ws, locate? (trim line) first.length later = some ws ∧
      words line = ⟨indentation line, first⟩ :: ws.map (Word.shift (indentation line)) := by
  rw [← runs_trim line] at h
  rw [words_trim line]
  have hhead : ∀ c ∈ (trim line).head?, isBlank c = false := fun c hc => trim_ends (.inl hc)
  generalize trim line = text at h hhead
  induction text using line_induction with
  | nil => cases h
  | blank c rest hc =>
    rw [hhead c rfl] at hc
    cases hc
  | run chars rest hrun hrest =>
    rw [runs_run hrun hrest] at h
    obtain ⟨rfl, rfl⟩ := List.cons.inj h
    exact ⟨_, locate?_runs chars [] nofun rest, by rw [words_run hrun hrest]; rfl⟩

end WireCut.Text
