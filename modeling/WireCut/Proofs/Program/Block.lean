import Mathlib.Data.List.Forall2
import WireCut.Proofs.Program.Source
import WireCut.Proofs.Text.Search

/-! Blocks of a program. A block is a line that is neither blank nor a comment, taken apart into its runs, and each
block is one command. -/
namespace WireCut

namespace Parameters

private theorem lookup_set (ps : Parameters) (key other : String) (value : Float) :
    (ps.set key value).lookup other = if key = other then some value else ps.lookup other := by
  induction ps with
  | nil =>
    rw [set, List.lookup_cons]
    by_cases h : key = other
    · simp [h]
    · simp [h, beq_eq_false_iff_ne.mpr (Ne.symm h)]
  | cons p ps ih =>
    obtain ⟨k, v⟩ := p
    rw [set, List.lookup_cons]
    by_cases hk : k = key
    · rw [if_pos hk, List.lookup_cons, hk]
      by_cases h : key = other
      · simp [h]
      · simp [h, beq_eq_false_iff_ne.mpr (Ne.symm h)]
    · rw [if_neg hk, List.lookup_cons, ih]
      by_cases h : other = k
      · simp [h, Ne.symm hk]
      · simp [beq_eq_false_iff_ne.mpr h]

theorem mem_keys_set {ps : Parameters} {key other : String} {value : Float} :
    other ∈ (ps.set key value).map Prod.fst ↔ other = key ∨ other ∈ ps.map Prod.fst := by
  induction ps with
  | nil => simp [set]
  | cons p ps ih =>
    obtain ⟨k, v⟩ := p
    rw [set]
    by_cases hk : k = key
    · simp [hk]
    · rw [if_neg hk, List.map_cons, List.mem_cons, ih, List.map_cons, List.mem_cons]
      tauto

/-- No key is set twice. -/
private theorem nodup_set {ps : Parameters} (h : (ps.map Prod.fst).Nodup) (key : String) (value : Float) :
    ((ps.set key value).map Prod.fst).Nodup := by
  induction ps with
  | nil => simp [set]
  | cons p ps ih =>
    obtain ⟨k, v⟩ := p
    rw [List.map_cons, List.nodup_cons] at h
    rw [set]
    by_cases hk : k = key
    · rw [if_pos hk, List.map_cons, List.nodup_cons]
      exact ⟨hk ▸ h.1, h.2⟩
    · rw [if_neg hk, List.map_cons, List.nodup_cons, mem_keys_set]
      exact ⟨not_or.mpr ⟨hk, h.1⟩, ih h.2⟩

end Parameters

namespace Program
open Text

structure Block where
  number : Nat
  line : List Char
  code : List Char
  arguments : List (List Char)

/-- The block of a line. A line without a run has none, and neither has a line whose first run begins with the
comment mark. -/
def block? (line : List Char) (number : Nat) : Option Block :=
  match runs line with
  | [] => none
  | code :: arguments => if code.head? = some commentMark then none else some ⟨number, line, code, arguments⟩

def blocks (text : String) : List Block :=
  (lines text.toList).zipIdx.filterMap fun (line, number) => block? line number

theorem runs_of_mem_blocks {text : String} {b : Block} (h : b ∈ blocks text) :
    runs b.line = b.code :: b.arguments ∧ b.code.head? ≠ some commentMark := by
  obtain ⟨⟨line, number⟩, -, hb⟩ := List.mem_filterMap.mp h
  dsimp only at hb
  unfold block? at hb
  split at hb
  · cases hb
  · rename_i hruns
    split at hb
    · cases hb
    · rename_i hmark
      cases hb
      exact ⟨hruns, hmark⟩

namespace Block

def tokens (b : Block) : List Char × List (List Char) :=
  (b.code, b.arguments)

def parameters (b : Block) : Parameters :=
  b.arguments.foldl (fun ps run => ps.set (String.ofList (upper (run.take 1))) (readNumber (run.drop 1))) []

/-- A command reads a block: it has the number of the line, the line without the blanks around it, the code in
capitals, and for each key the number of the last argument that begins with the key. -/
structure Reads (b : Block) (c : Command) : Prop where
  line : c.line = b.number
  raw : ∃ before behind, b.line = before ++ (c.raw.toList ++ behind) ∧
    (∀ d ∈ before ++ behind, isBlank d = true) ∧
    ∀ d, d ∈ c.raw.toList.head? ∨ d ∈ c.raw.toList.getLast? → isBlank d = false
  code : c.code = String.ofList (upper b.code)
  values : ∀ key, c.parameters.lookup key =
    (b.arguments.reverse.find? fun run => String.ofList (upper (run.take 1)) = key).map fun run =>
      readNumber (run.drop 1)
  keys : (c.parameters.map Prod.fst).Nodup

theorem parameters_lookup (b : Block) (key : String) :
    b.parameters.lookup key =
      (b.arguments.reverse.find? fun run => String.ofList (upper (run.take 1)) = key).map fun run =>
        readNumber (run.drop 1) := by
  -- what is set later hides what is set before, so the fold is followed with the parameters that it begins with
  have hfold (runs : List (List Char)) (ps : Parameters) :
      (runs.foldl (fun ps run => ps.set (String.ofList (upper (run.take 1))) (readNumber (run.drop 1))) ps).lookup
        key = ((runs.reverse.find? fun run => String.ofList (upper (run.take 1)) = key).map fun run =>
          readNumber (run.drop 1)).or (ps.lookup key) := by
    induction runs generalizing ps with
    | nil => simp
    | cons run runs ih =>
      rw [List.foldl_cons, ih, Parameters.lookup_set, List.reverse_cons, List.find?_append]
      by_cases h : String.ofList (upper (run.take 1)) = key
      · cases runs.reverse.find? fun run => String.ofList (upper (run.take 1)) = key <;> simp [h]
      · cases runs.reverse.find? fun run => String.ofList (upper (run.take 1)) = key <;> simp [h]
  rw [parameters, hfold]
  simp

private theorem parameters_keys (b : Block) : (b.parameters.map Prod.fst).Nodup :=
  List.foldlRecOn (motive := fun (ps : Parameters) => (ps.map Prod.fst).Nodup) b.arguments _ .nil
    fun _ h _ _ => Parameters.nodup_set h _ _

def command (b : Block) : Command :=
  ⟨String.ofList (trim b.line), String.ofList (upper b.code), b.parameters, b.number⟩

private theorem reads_command (b : Block) : b.Reads b.command where
  line := rfl
  raw := by
    obtain ⟨before, behind, hline, -, hbefore, hbehind⟩ := trim_eq b.line
    simp only [command, String.toList_ofList]
    refine ⟨before, behind, hline, fun d hd => ?_, fun d hd => trim_ends hd⟩
    exact (List.mem_append.mp hd).elim (hbefore d) (hbehind d)
  code := rfl
  values := b.parameters_lookup
  keys := b.parameters_keys

end Block

private theorem parametersOf_eq (number : Nat) (line code : List Char) (ws : List Word) :
    parametersOf ws = Block.parameters ⟨number, line, code, ws.map Word.chars⟩ := by
  rw [Block.parameters, List.foldl_map]
  rfl

theorem commandOf_eq (line : List Char) (number : Nat) :
    commandOf line number = (block? line number).map Block.command := by
  have hruns := words_chars line
  rw [commandOf, block?, ← hruns]
  cases words line with
  | nil => rfl
  | cons w ws =>
    simp only [List.map_cons]
    by_cases hmark : w.chars.head? = some commentMark
    · rw [if_pos hmark, if_pos hmark]
      rfl
    · rw [if_neg hmark, if_neg hmark, Option.map_some, parametersOf_eq number line w.chars ws]
      rfl

theorem commands_eq (text : String) : commands text = (blocks text).map Block.command := by
  rw [commands, blocks, List.map_filterMap]
  exact congrArg (List.filterMap · _) (funext fun entry => commandOf_eq entry.1 entry.2)

/-- The commands of a text are what its blocks read, one for each block in the order of the lines. The codes and the
parameters follow from the runs of the blocks, whatever blanks stand between them and whatever other lines stand
between the blocks. -/
theorem commands_read_blocks (text : String) :
    List.Forall₂ Block.Reads (blocks text) (commands text) ∧
      ((commands text).map Command.line).Pairwise (· < ·) ∧
      ∀ other, (blocks text).map Block.tokens = (blocks other).map Block.tokens →
        (commands text).map (fun c => (c.code, c.parameters)) =
          (commands other).map fun c => (c.code, c.parameters) := by
  refine ⟨?_, commands_lines text, fun other h => ?_⟩
  · rw [commands_eq, List.forall₂_map_right_iff]
    exact List.forall₂_same.mpr fun b _ => b.reads_command
  · let read : List Char × List (List Char) → String × Parameters :=
      fun (code, arguments) => (String.ofList (upper code), Block.parameters ⟨0, [], code, arguments⟩)
    have hread (text : String) :
        (commands text).map (fun c => (c.code, c.parameters)) = ((blocks text).map Block.tokens).map read := by
      rw [commands_eq, List.map_map, List.map_map]
      rfl
    rw [hread, hread, h]

/-- Two texts whose blocks have the same runs: one is indented by a no-break space and a tab, and has a blank line
and a comment between its commands. -/
theorem commands_read_blocks_respaced :
    (commands "G01 X1 Y2 X3\nM02").map (fun c => (c.code, c.parameters)) =
      (commands "\u00a0\tG01\tX1  Y2\u2003X3 \n \n; end\n M02\r").map fun c => (c.code, c.parameters) :=
  (commands_read_blocks "G01 X1 Y2 X3\nM02").2.2 "\u00a0\tG01\tX1  Y2\u2003X3 \n \n; end\n M02\r" (by decide +kernel)

end Program

end WireCut
