import WireCut.Editor.Highlight
import WireCut.Proofs.Program.Omission
import WireCut.Proofs.Program.Warning

/-! Coloring of lines. The editor takes a line apart by itself, character by character, and yet it colors exactly the
words that are read from the line as a command: the first one by whether the machine knows the code, and the others by
the keys of the parameters. -/
namespace WireCut

namespace Machine

/-- A command is reported as unsupported exactly when its code is unknown, in whatever state the machine is. -/
private theorem report_unsupported_iff (m : Machine) (c : Command) :
    (m.execute c).report = some (unsupported c) ↔ Instruction.ofCode? c.code = none := by
  constructor
  · intro h
    cases hcode : Instruction.ofCode? c.code with
    | none => rfl
    | some instruction =>
      rw [execute, hcode] at h
      dsimp only at h
      split at h
      · cases h
      · have hkind := congrArg Diagnostic.kind (Option.some.inj h)
        cases hkind
  · intro h
    rw [execute_unknown m h]

end Machine

namespace Program
open Text

private theorem commandOf_of_words {line : List Char} {first : Word} {later : List Word} (h : words line = first :: later)
    (hmark : first.chars.head? ≠ some commentMark) (number : Nat) :
    commandOf line number =
      some ⟨String.ofList (trim line), String.ofList (upper first.chars), parametersOf later, number⟩ := by
  rw [commandOf, h]
  exact if_neg hmark

private theorem mem_keys_parametersOf {ws : List Word} {key : String} :
    key ∈ (parametersOf ws).map Prod.fst ↔ ∃ w ∈ ws, keyOf w = key := by
  have hfold (ps : Parameters) : key ∈ (ws.foldl (fun ps w => ps.set (keyOf w) (valueOf w)) ps).map Prod.fst ↔
      (∃ w ∈ ws, keyOf w = key) ∨ key ∈ ps.map Prod.fst := by
    induction ws generalizing ps with
    | nil => simp
    | cons w ws ih =>
      rw [List.foldl_cons, ih, Parameters.mem_keys_set, List.exists_mem_cons_iff, @eq_comm _ key, or_left_comm, or_assoc]
  rw [parametersOf, hfold]
  simp

end Program

/-- The editor and the machine have tables of the same codes. -/
private theorem Style.ofCode_eq_unknown_iff (code : String) : Style.ofCode code = .unknown ↔ Instruction.ofCode? code = none := by
  unfold Style.ofCode Instruction.ofCode?
  split <;> simp

namespace Highlight
open Text Program

/-- An open run goes on up to the next blank. -/
private theorem runs_open {chars rest : List Char} (solid : ∀ c ∈ chars, isBlank c = false) (hrest : Parted rest)
    (column start : Nat) (collected : List Char) :
    runs column (some (start, collected)) (chars ++ rest) =
      (start, collected.reverse ++ chars) :: runs (column + chars.length) none rest := by
  induction chars generalizing column collected with
  | nil =>
    obtain rfl | ⟨b, rest, rfl, hb⟩ := hrest.eq_nil_or_cons
    · simp [runs]
    · simp [runs, hb]
  | cons c cs ih =>
    have hc := solid c List.mem_cons_self
    rw [List.cons_append, runs, hc, ih fun d hd => solid d (List.mem_cons_of_mem c hd)]
    simp [Nat.add_assoc, Nat.add_comm 1]

private theorem runs_run {chars rest : List Char} (h : IsRun chars) (hrest : Parted rest) (column : Nat) :
    runs column none (chars ++ rest) = (column, chars) :: runs (column + chars.length) none rest := by
  obtain ⟨c, cs, rfl, hc⟩ := h.eq_cons
  rw [List.cons_append, runs, hc, runs_open (fun d hd => h.solid d (List.mem_cons_of_mem c hd)) hrest]
  simp [Nat.add_assoc, Nat.add_comm 1]

/-- The runs that the editor collects are the words of the line. -/
private theorem runs_eq (column : Nat) (line : List Char) :
    runs column none line = (words line).map fun w => (column + w.start, w.chars) := by
  induction line using line_induction generalizing column with
  | nil => rfl
  | blank c rest hc ih =>
    rw [runs, hc, words_blank hc, List.map_map, if_pos rfl, ih]
    simp [Function.comp_def, Nat.add_assoc]
  | run chars rest hrun hrest ih =>
    rw [runs_run hrun hrest, words_run hrun hrest, ih, List.map_cons, List.map_map]
    simp [Function.comp_def, Nat.add_assoc]

section
variable {line : List Char}

private theorem ofLine_of_blank (h : words line = []) : ofLine line = [] := by
  have hhead := words_head line
  rw [h] at hhead
  rw [ofLine, List.head?_eq_none_iff.mp hhead.symm]

/-- The comment goes from its mark to the end of the line. -/
private theorem ofLine_of_comment {first : Word} {later : List Word} (h : words line = first :: later)
    (hmark : first.chars.head? = some commentMark) :
    ofLine line = [⟨indentation line, (trimLeft line).length, .comment⟩] := by
  have hhead := words_head line
  rw [h, List.head?_cons, Option.bind_some, hmark] at hhead
  obtain ⟨rest, hrest⟩ := List.head?_eq_some_iff.mp hhead.symm
  rw [ofLine, indentation, hrest]
  rfl

private theorem ofLine_of_words {first : Word} {later : List Word} (h : words line = first :: later)
    (hmark : first.chars.head? ≠ some commentMark) :
    ofLine line = ofRun true first.start first.chars :: later.map fun w => ofRun false w.start w.chars := by
  have hhead := words_head line
  obtain ⟨c, cs, hchars, -⟩ := (mem_words.mp (h ▸ List.mem_cons_self)).run.eq_cons
  rw [hchars, List.head?_cons] at hmark
  rw [h, List.head?_cons, Option.bind_some, hchars, List.head?_cons] at hhead
  obtain ⟨rest, hrest⟩ := List.head?_eq_some_iff.mp hhead.symm
  have hruns : runs 0 none line = (first.start, first.chars) :: later.map fun w => (w.start, w.chars) := by
    rw [runs_eq, h, List.map_cons, Nat.zero_add]
    simp
  rw [ofLine, hrest, hruns]
  dsimp only
  split
  · rename_i hnil
    cases hnil
  · rename_i hcomment
    exact absurd (congrArg some (List.cons.inj hcomment).1) hmark
  · rw [List.map_map]
    rfl

private theorem style_ne_comment {h : Highlight} {first : Word} {later : List Word}
    (hh : h ∈ ofRun true first.start first.chars :: later.map fun w => ofRun false w.start w.chars) :
    h.style ≠ .comment := by
  have hcode (code : String) : Style.ofCode code ≠ .comment := by
    unfold Style.ofCode
    split <;> simp
  have hletter (letter : String) : Style.ofLetter letter ≠ .comment := by
    unfold Style.ofLetter
    split <;> simp
  obtain rfl | hh := List.mem_cons.mp hh
  · exact hcode _
  · obtain ⟨w, -, rfl⟩ := List.mem_map.mp hh
    exact hletter _

end

/-- The colored parts of a line with a command: one in the columns of each word that the command is read from. -/
structure Colors (line : List Char) (c : Command) (first : Word) (later : List Word) : Prop where
  words_eq : words line = first :: later
  found : ∃ ws, locate? (trim line) first.chars.length (later.map Word.chars) = some ws ∧
    later = ws.map (Word.shift (indentation line))
  code_eq : c.code = String.ofList (upper first.chars)
  parameters_eq : c.parameters = parametersOf later
  keys : ∀ w ∈ later, keyOf w ∈ c.parameters.map Prod.fst
  colored_eq : ofLine line = ⟨first.start, first.chars.length, .ofCode c.code⟩ ::
    later.map fun w => ⟨w.start, w.chars.length, .ofLetter (keyOf w)⟩
  apart : (ofLine line).Pairwise fun h k => h.start + h.length < k.start
  unknown_iff : ∀ m : Machine, Style.ofCode c.code = .unknown ↔ (m.execute c).report = some (Machine.unsupported c)

private theorem colors_of_words {line : List Char} {first : Word} {later : List Word} (h : words line = first :: later)
    (hmark : first.chars.head? ≠ some commentMark) {number : Nat} {c : Command} (hc : commandOf line number = some c) :
    Colors line c first later := by
  rw [commandOf_of_words h hmark] at hc
  obtain rfl := Option.some.inj hc
  have hcolored := ofLine_of_words h hmark
  refine ⟨h, ?_, rfl, rfl, fun w hw => mem_keys_parametersOf.mpr ⟨w, hw, rfl⟩, hcolored, ?_, fun m => ?_⟩
  · have hruns := words_chars line
    rw [h, List.map_cons] at hruns
    obtain ⟨ws, hfound, hwords⟩ := locate?_trim hruns.symm
    rw [h] at hwords
    exact ⟨ws, hfound, (List.cons.inj hwords).2⟩
  · have hascend := words_ascend line
    rw [h] at hascend
    rw [hcolored]
    obtain ⟨hfirst, hlater⟩ := List.pairwise_cons.mp hascend
    refine List.pairwise_cons.mpr ⟨?_, List.pairwise_map.mpr hlater⟩
    intro k hk
    obtain ⟨w, hw, rfl⟩ := List.mem_map.mp hk
    exact hfirst w hw
  · rw [Machine.report_unsupported_iff, Style.ofCode_eq_unknown_iff]

/-- A line is blank, or a comment, or it has a command. -/
private theorem line_cases (line : List Char) (number : Nat) :
    ((∀ c ∈ line, isBlank c = true) ∧ words line = []) ∨
      ((trim line).head? = some commentMark ∧ ∃ first later, words line = first :: later ∧
        first.chars.head? = some commentMark) ∨
      ∃ c first later, commandOf line number = some c ∧ words line = first :: later ∧
        first.chars.head? ≠ some commentMark ∧ (trim line).head? = first.chars.head? := by
  have hhead := words_head line
  rw [← trim_head] at hhead
  cases hwords : words line with
  | nil => exact .inl ⟨words_eq_nil_iff.mp hwords, rfl⟩
  | cons first later =>
    rw [hwords, List.head?_cons, Option.bind_some] at hhead
    by_cases hmark : first.chars.head? = some commentMark
    · exact .inr (.inl ⟨hhead.symm.trans hmark, first, later, rfl, hmark⟩)
    · exact .inr (.inr ⟨_, first, later, commandOf_of_words hwords hmark number, rfl, hmark, hhead.symm⟩)

private theorem not_blank_of_words {line : List Char} {first : Word} {later : List Word} (h : words line = first :: later) :
    ¬ ∀ c ∈ line, isBlank c = true := by
  intro hblank
  rw [words_eq_nil_iff.mpr hblank] at h
  cases h

/-- The editor and the reader of programs agree about every line. Nothing is colored if the line is blank. A line that
is skipped as a comment has one color, from its mark to its end. And a line with a command has one colored part for each
word that the command is read from, in its columns: the first is that of unknown codes if the machine reports the code
as unsupported, and the others are those of the keys of the parameters. A warning about a line is about one of the
parts. -/
theorem coloring_agrees_with_reading (line : List Char) (number : Nat) :
    let colored := ofLine line
    let blank := ∀ c ∈ line, isBlank c = true
    let comment := (trim line).head? = some commentMark
    (colored = [] ↔ blank) ∧
      ((∃ h ∈ colored, h.style = .comment) ↔ comment) ∧
      (comment → ∃ before text, line = before ++ text ∧ (∀ c ∈ before, isBlank c = true) ∧
        text.head? = some commentMark ∧ colored = [⟨before.length, text.length, .comment⟩]) ∧
      (commandOf line number = none ↔ blank ∨ comment) ∧
      (∀ c, commandOf line number = some c → ∃ first later, Colors line c first later) ∧
      ∀ d ∈ warningsOf line number, ∃ h ∈ colored, d.start = h.start ∧ d.stop = h.start + h.length := by
  intro colored blank comment
  obtain ⟨hblank, hwords⟩ | ⟨hcomment, first, later, hwords, hmark⟩ | ⟨c, first, later, hc, hwords, hmark, hhead⟩ :=
    line_cases line number
  · have hcolored : colored = [] := ofLine_of_blank hwords
    have hnot : ¬ comment := by
      intro hcomment
      have hhead := words_head line
      rw [hwords, ← trim_head, hcomment] at hhead
      cases hhead
    have hcommand : commandOf line number = none := by rw [commandOf, hwords]
    have hwarnings : warningsOf line number = [] := by rw [warningsOf, hwords]
    rw [hcolored, hcommand, hwarnings]
    refine ⟨iff_of_true rfl hblank, iff_of_false ?_ hnot, fun h => absurd h hnot, iff_of_true rfl (.inl hblank),
      fun c hc => ?_, List.forall_mem_nil _⟩
    · rintro ⟨h, hh, -⟩
      cases hh
    · cases hc
  · have hcolored : colored = [⟨indentation line, (trimLeft line).length, .comment⟩] := ofLine_of_comment hwords hmark
    have hcommand : commandOf line number = none := commandOf_comment (trim_head line ▸ hcomment) number
    have hwarnings : warningsOf line number = [] := by
      rw [warningsOf, hwords]
      exact if_pos hmark
    rw [hcolored, hcommand, hwarnings]
    refine ⟨iff_of_false (List.cons_ne_nil _ _) (not_blank_of_words hwords),
      iff_of_true ⟨_, List.mem_cons_self, rfl⟩ hcomment, fun _ => ?_, iff_of_true rfl (.inr hcomment), fun c hc => ?_,
      List.forall_mem_nil _⟩
    · obtain ⟨before, hbefore, hline⟩ := trimLeft_eq line
      refine ⟨before, trimLeft line, hline, hbefore, (trim_head line).symm.trans hcomment, ?_⟩
      have hlength := congrArg List.length hline
      rw [List.length_append] at hlength
      rw [indentation, hlength, Nat.add_sub_cancel]
    · cases hc
  · have hcolors := colors_of_words hwords hmark hc
    have hcolored : colored = _ := ofLine_of_words hwords hmark
    have hnot : ¬ comment := fun hcomment => hmark (hhead.symm.trans hcomment)
    refine ⟨?_, ?_, fun h => absurd h hnot, ?_, ?_, ?_⟩
    · rw [hcolored]
      exact iff_of_false (List.cons_ne_nil _ _) (not_blank_of_words hwords)
    · refine iff_of_false ?_ hnot
      rintro ⟨h, hh, hstyle⟩
      rw [hcolored] at hh
      exact style_ne_comment hh hstyle
    · rw [hc]
      exact iff_of_false (Option.some_ne_none c) fun h => h.elim (not_blank_of_words hwords) hnot
    · intro d hd
      rw [hc] at hd
      cases hd
      exact ⟨first, later, hcolors⟩
    · intro d hd
      obtain ⟨w, hw, -, rfl⟩ := mem_warningsOf.mp hd
      rw [hcolored]
      exact ⟨_, List.mem_cons_of_mem _ (List.mem_map_of_mem ((isParameter_iff hwords hmark).mp hw)), rfl,
        Int.natCast_add w.start w.chars.length⟩

end Highlight

end WireCut
