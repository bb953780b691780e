import WireCut.Proofs.Bench.Event
import WireCut.Proofs.Program.Block

/-! Warnings about a program. Each parameter that is not a number has one warning, and the columns of the warning
hold the parameter. -/
namespace WireCut

namespace Program
open Text

/-- A parameter of a line: a word behind another word of a line that is not a comment. -/
structure IsParameter (w : Word) (line : List Char) : Prop where
  stands : w.StandsIn line
  behind : ∃ v : Word, v.StandsIn line ∧ v.stop < w.start
  command : ∀ run ∈ (runs line).head?, run.head? ≠ some commentMark

/-- The parameters of a line that is not a comment are its words behind the first one. -/
theorem isParameter_iff {line : List Char} {first w : Word} {later : List Word} (h : words line = first :: later)
    (hmark : first.chars.head? ≠ some commentMark) : IsParameter w line ↔ w ∈ later := by
  have hascend := words_ascend line
  have hruns := words_chars line
  rw [h, List.pairwise_cons] at hascend
  rw [h, List.map_cons] at hruns
  constructor
  · rintro ⟨hstands, ⟨v, hv, hbehind⟩, -⟩
    rw [← mem_words, h, List.mem_cons] at hstands hv
    -- no word stands before the first one
    obtain rfl | hw := hstands
    · obtain rfl | hv := hv
      · simp only [Word.stop] at hbehind
        omega
      · have := hascend.1 v hv
        simp only [Word.stop] at this hbehind
        omega
    · exact hw
  · intro hw
    refine ⟨mem_words.mp (h ▸ List.mem_cons_of_mem first hw), ⟨first, ?_, hascend.1 w hw⟩, fun run hrun => ?_⟩
    · exact mem_words.mp (h ▸ List.mem_cons_self)
    · rw [← hruns] at hrun
      exact Option.some.inj hrun ▸ hmark

private theorem IsParameter.exists_words {w : Word} {line : List Char} (h : IsParameter w line) :
    ∃ first later, words line = first :: later ∧ first.chars.head? ≠ some commentMark := by
  have hmem := mem_words.mpr h.stands
  have hruns := words_chars line
  cases hwords : words line with
  | nil =>
    rw [hwords] at hmem
    cases hmem
  | cons first later =>
    rw [hwords, List.map_cons] at hruns
    exact ⟨first, later, rfl, h.command first.chars (by rw [← hruns]; rfl)⟩

theorem mem_warningsOf {line : List Char} {number : Nat} {d : Diagnostic} :
    d ∈ warningsOf line number ↔
      ∃ w, IsParameter w line ∧ (readNumber (w.chars.drop 1)).isNaN = true ∧ d = notANumberWarning number w := by
  constructor
  · intro h
    unfold warningsOf at h
    split at h
    · cases h
    · rename_i first later hwords
      split at h
      · cases h
      · rename_i hmark
        obtain ⟨w, hw, rfl⟩ := List.mem_map.mp h
        obtain ⟨hw, hnan⟩ := List.mem_filter.mp hw
        exact ⟨w, (isParameter_iff hwords hmark).mpr hw, hnan, rfl⟩
  · rintro ⟨w, hw, hnan, rfl⟩
    obtain ⟨first, later, hwords, hmark⟩ := hw.exists_words
    rw [warningsOf, hwords]
    simp only [if_neg hmark]
    exact List.mem_map_of_mem (List.mem_filter.mpr ⟨(isParameter_iff hwords hmark).mp hw, hnan⟩)

/-- A diagnostic is about an earlier place: an earlier line, or columns that end before the other ones begin. -/
def Before (d e : Diagnostic) : Prop :=
  d.line < e.line ∨ d.line = e.line ∧ d.stop < e.start

private theorem warningsOf_ascend (line : List Char) (number : Nat) : (warningsOf line number).Pairwise Before := by
  have hascend := words_ascend line
  unfold warningsOf
  split
  · exact .nil
  · rename_i first later hwords
    rw [hwords] at hascend
    split
    · exact .nil
    · rw [List.pairwise_map]
      refine (hascend.of_cons.sublist List.filter_sublist).imp fun h => .inr ⟨rfl, ?_⟩
      exact Int.ofNat_lt.mpr h

private theorem warningsOf_line {line : List Char} {number : Nat} {d : Diagnostic} (h : d ∈ warningsOf line number) :
    d.line = number := by
  obtain ⟨w, -, -, rfl⟩ := mem_warningsOf.mp h
  rfl

/-- The warnings about a text are in the order of their places. -/
private theorem warnings_ascend (text : String) : (warnings text).Pairwise Before := by
  rw [warnings, List.pairwise_flatMap]
  refine ⟨fun _ _ => warningsOf_ascend _ _, ?_⟩
  have hnumbers : ((lines text.toList).zipIdx.map Prod.snd).Pairwise (· < ·) := by
    rw [List.zipIdx_map_snd]
    exact List.pairwise_lt_range'
  rw [List.pairwise_map] at hnumbers
  refine hnumbers.imp fun {p q} h d hd e he => .inl ?_
  rw [warningsOf_line hd, warningsOf_line he]
  exact Int.ofNat_lt.mpr h

theorem mem_warnings {text : String} {d : Diagnostic} :
    d ∈ warnings text ↔ ∃ (number : Nat) (line : List Char) (w : Word),
      (lines text.toList)[number]? = some line ∧ IsParameter w line ∧
      (readNumber (w.chars.drop 1)).isNaN = true ∧ d = notANumberWarning number w := by
  rw [warnings, List.mem_flatMap]
  constructor
  · rintro ⟨⟨line, number⟩, hline, hd⟩
    obtain ⟨w, hw⟩ := mem_warningsOf.mp hd
    exact ⟨number, line, w, List.mem_zipIdx_iff_getElem?.mp hline, hw⟩
  · rintro ⟨number, line, w, hline, hw⟩
    exact ⟨(line, number), List.mem_zipIdx_iff_getElem?.mpr hline, mem_warningsOf.mpr ⟨w, hw⟩⟩

/-- The search for the arguments of a block finds each one in the columns of its word. -/
theorem Block.locate?_arguments {text : String} {b : Block} (h : b ∈ blocks text) :
    ∃ ws, locate? (trim b.line) b.code.length b.arguments = some ws ∧
      ∀ w, IsParameter w b.line ↔ w ∈ ws.map (Word.shift (indentation b.line)) := by
  obtain ⟨hruns, hmark⟩ := runs_of_mem_blocks h
  obtain ⟨ws, hfound, hwords⟩ := locate?_trim hruns
  exact ⟨ws, hfound, fun w => isParameter_iff hwords hmark⟩

/-- The warnings about a text are one for each parameter that is not a number, in the order of their places, and the
columns of each hold its parameter. They are the columns at which a search of the line from one argument to the next
one finds it. A session that keeps diagnostics begins with them, and it has the same program as a session that keeps
none. -/
theorem warnings_mark_parameters (text : String) :
    (∀ d, d ∈ warnings text ↔ ∃ (number : Nat) (line : List Char) (w : Word),
      (lines text.toList)[number]? = some line ∧ IsParameter w line ∧
      (readNumber (w.chars.drop 1)).isNaN = true ∧ (line.take w.stop).drop w.start = w.chars ∧
      d = ⟨number, w.start, w.stop, "Parameter '" ++ String.ofList w.chars ++ "' is not a number and will be ignored",
        .spelling, .warning⟩) ∧
      (warnings text).Pairwise Before ∧
      (∀ b ∈ blocks text, ∃ ws, locate? (trim b.line) b.code.length b.arguments = some ws ∧
        ∀ w, IsParameter w b.line ↔ w ∈ ws.map (Word.shift (indentation b.line))) ∧
      ∀ setup speed scale s,
        let kept := (Session.create setup text speed scale s).session.playback
        let bare := (Session.createBare setup text speed scale s).session.playback
        kept.log = some (warnings text).reverse ∧ bare.log = none ∧
          kept.program = (commands text).toArray ∧ bare.program = (commands text).toArray := by
  refine ⟨fun d => ?_, warnings_ascend text, fun b hb => Block.locate?_arguments hb, fun setup speed scale s => ?_⟩
  · rw [mem_warnings]
    constructor
    · rintro ⟨number, line, w, hline, hw, hnan, rfl⟩
      exact ⟨number, line, w, hline, hw, hnan, hw.stands.slice, rfl⟩
    · rintro ⟨number, line, w, hline, hw, hnan, -, rfl⟩
      exact ⟨number, line, w, hline, hw, hnan, rfl⟩
  · rw [Session.create_eq, Session.createBare, Playback.load, Playback.setSpeed_eq]
    exact ⟨rfl, rfl, rfl, rfl⟩

/-- A parameter is found at its own place when an earlier one is equal to it or has it inside. -/
example :
    (warnings " G01 X1X X\t\tXX  X X2").map (fun d => (d.start, d.stop, d.message)) =
      [(9, 10, "Parameter 'X' is not a number and will be ignored"),
        (12, 14, "Parameter 'XX' is not a number and will be ignored"),
        (16, 17, "Parameter 'X' is not a number and will be ignored")] := by
  decide +kernel

end Program

end WireCut
