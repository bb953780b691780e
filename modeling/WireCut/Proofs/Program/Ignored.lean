import WireCut.Proofs.Machine.Replay
import WireCut.Proofs.Program.Warning
import WireCut.Proofs.Text.Blanking

/-! Ignored parameters. A text is compared with the one in which each parameter that a warning is about is blank. The
two have the same commands but for these parameters. A parameter that is not a number still takes the place of an
earlier one with its key, and unless a command reads a number that is hidden in this way, the two programs do the
same. -/
namespace WireCut

namespace Program
open Text

def numeric (run : List Char) : Bool :=
  !(readNumber (run.drop 1)).isNaN

def warned (text : String) (number column : Nat) : Bool :=
  (warnings text).any fun d => d.line = number && d.start ≤ column && column < d.stop

/-- The text with blanks in the place of each parameter that a warning is about. -/
def blanked (text : String) : String :=
  String.ofList (['\n'].intercalate
    ((lines text.toList).mapIdx fun number line => blankAt (warned text number) line))

private theorem lines_blanked (text : String) :
    lines (blanked text).toList = (lines text.toList).mapIdx fun number line => blankAt (warned text number) line := by
  rw [blanked, String.toList_ofList]
  refine lines_intercalate text.toList fun number line hline hmem => ?_
  obtain hspace | hmem := mem_blankAt hmem
  · exact absurd hspace (by decide)
  · exact hline hmem

/-- A column of a word is warned about exactly when the word is a parameter without a number. -/
private theorem warned_iff {text : String} {number : Nat} {line : List Char}
    (hline : (lines text.toList)[number]? = some line) {w : Word} (hw : w ∈ words line) {column : Nat}
    (hstart : w.start ≤ column) (hstop : column < w.stop) :
    warned text number column = true ↔ IsParameter w line ∧ numeric w.chars = false := by
  simp only [warned, List.any_eq_true, Bool.and_eq_true, decide_eq_true_eq, numeric, Bool.not_eq_false']
  constructor
  · rintro ⟨d, hd, ⟨hnumber, hleft⟩, hright⟩
    obtain ⟨number', line', v, hline', hv, hnan, rfl⟩ := mem_warnings.mp hd
    obtain rfl : number' = number := Int.ofNat_inj.mp hnumber
    obtain rfl : line' = line := Option.some.inj (hline'.symm.trans hline)
    obtain rfl := eq_of_shared_column hw (mem_words.mpr hv.stands) ⟨hstart, hstop⟩
      ⟨Int.ofNat_le.mp hleft, Int.ofNat_lt.mp hright⟩
    exact ⟨hv, hnan⟩
  · rintro ⟨hparameter, hnan⟩
    refine ⟨notANumberWarning number w, mem_warnings.mpr ⟨number, line, w, hline, hparameter, hnan, rfl⟩, ⟨rfl, ?_⟩, ?_⟩
    · exact Int.ofNat_le.mpr hstart
    · exact Int.ofNat_lt.mpr hstop

/-- A word stays where it is unless it is a parameter without a number. -/
private theorem not_warned_iff {text : String} {number : Nat} {line : List Char}
    (hline : (lines text.toList)[number]? = some line) {w : Word} (hw : w ∈ words line) :
    (!warned text number w.start) = true ↔ (IsParameter w line → numeric w.chars = true) := by
  have hstop : w.start < w.stop :=
    Nat.lt_add_of_pos_right (List.length_pos_iff.mpr (mem_words.mp hw).run.nonempty)
  rw [Bool.not_eq_true', ← Bool.not_eq_true, warned_iff hline hw le_rfl hstop, not_and, Bool.not_eq_false]

/-- A comment has no parameters. -/
private theorem not_isParameter_of_comment {line : List Char} {first : Word} {later : List Word}
    (hwords : words line = first :: later) (hmark : first.chars.head? = some commentMark) (w : Word) :
    ¬ IsParameter w line := by
  intro hw
  have hruns := words_chars line
  rw [hwords, List.map_cons] at hruns
  exact hw.command first.chars (by rw [← hruns]; rfl) hmark

/-- The first word of a line is no parameter. -/
private theorem not_isParameter_first {line : List Char} {first : Word} {later : List Word}
    (hwords : words line = first :: later) : ¬ IsParameter first line := by
  by_cases hmark : first.chars.head? = some commentMark
  · exact not_isParameter_of_comment hwords hmark first
  · intro hparameter
    have hascend := words_ascend line
    rw [hwords] at hascend
    -- the first word does not stand behind itself
    have hself := (List.pairwise_cons.mp hascend).1 first ((isParameter_iff hwords hmark).mp hparameter)
    simp only [Word.stop] at hself
    omega

/-- A blanked line keeps its first word, and of the words behind it those that are numeric. A comment keeps all. -/
private theorem words_blanked {text : String} {number : Nat} {line : List Char}
    (hline : (lines text.toList)[number]? = some line) {first : Word} {later : List Word}
    (hwords : words line = first :: later) :
    words (blankAt (warned text number) line) =
      first :: if first.chars.head? = some commentMark then later else later.filter fun w => numeric w.chars := by
  have hwhole : ∀ w ∈ words line, ∀ k, w.start ≤ k → k < w.stop →
      warned text number k = warned text number w.start := fun w hw k hstart hstop =>
    Bool.eq_iff_iff.mpr ((warned_iff hline hw hstart hstop).trans
      (warned_iff hline hw le_rfl (Nat.lt_of_le_of_lt hstart hstop)).symm)
  have hkept {w : Word} (hw : w ∈ first :: later) := not_warned_iff hline (hwords ▸ hw)
  have hfirst : (!warned text number first.start) = true :=
    (hkept List.mem_cons_self).mpr fun hparameter => absurd hparameter (not_isParameter_first hwords)
  rw [words_blankAt hwhole, hwords, List.filter_cons, if_pos hfirst]
  congr 1
  split
  · rename_i hmark
    rw [List.filter_eq_self]
    exact fun w hw => (hkept (List.mem_cons_of_mem first hw)).mpr fun h =>
      absurd h (not_isParameter_of_comment hwords hmark w)
  · rename_i hmark
    refine List.filter_congr fun w hw => Bool.eq_iff_iff.mpr ?_
    rw [hkept (List.mem_cons_of_mem first hw)]
    exact imp_iff_right ((isParameter_iff hwords hmark).mpr hw)

/-- Nothing is left to warn about. -/
private theorem warnings_blanked (text : String) : warnings (blanked text) = [] := by
  rw [warnings, lines_blanked, List.flatMap_eq_nil_iff]
  rintro ⟨line', number⟩ hline'
  rw [List.mem_zipIdx_iff_getElem?, List.getElem?_mapIdx, Option.map_eq_some_iff] at hline'
  dsimp only at hline' ⊢
  obtain ⟨line, hline, rfl⟩ := hline'
  unfold warningsOf
  cases hwords : words line with
  | nil =>
    rw [words_blankAt (by simp [hwords]), hwords]
    rfl
  | cons first later =>
    rw [words_blanked hline hwords]
    dsimp only
    split
    · rfl
    · simp [List.filter_filter, numeric, valueOf]

namespace Block

def blanked (text : String) (b : Block) : Block :=
  ⟨b.number, blankAt (warned text b.number) b.line, b.code, b.arguments.filter numeric⟩

def hasKey (key : String) (run : List Char) : Bool :=
  String.ofList (upper (run.take 1)) = key

/-- Whether the last argument with a key has no number, although another one with the key has. -/
def hides (b : Block) (key : String) : Bool :=
  (b.arguments.reverse.find? (hasKey key)).any (!numeric ·) && b.arguments.any fun run => hasKey key run && numeric run

end Block

private theorem block?_blanked {text : String} {number : Nat} {line : List Char}
    (hline : (lines text.toList)[number]? = some line) :
    block? (blankAt (warned text number) line) number = (block? line number).map (Block.blanked text) := by
  have hruns := words_chars line
  have hruns' := words_chars (blankAt (warned text number) line)
  rw [block?, block?, ← hruns, ← hruns']
  cases hwords : words line with
  | nil =>
    rw [words_blankAt (by simp [hwords]), hwords]
    rfl
  | cons first later =>
    rw [words_blanked hline hwords, List.map_cons, List.map_cons]
    by_cases hmark : first.chars.head? = some commentMark
    · simp only [hmark, if_true]
      rfl
    · simp only [hmark, if_false, Option.map_some, Block.blanked, List.filter_map]
      rfl

private theorem blocks_blanked (text : String) : blocks (blanked text) = (blocks text).map (Block.blanked text) := by
  rw [blocks, blocks, lines_blanked, zipIdx_mapIdx, List.filterMap_map, List.map_filterMap]
  refine List.filterMap_congr fun entry hmem => ?_
  exact block?_blanked (List.mem_zipIdx_iff_getElem?.mp hmem)

/-- The first element with a property is the first one with this property and another one, or there is none with
both, or it hides the first one with both. -/
private theorem find?_filter_eq {α : Type} (p q : α → Bool) (l : List α) :
    (l.find? p).filter q =
      if (l.find? p).any (!q ·) && l.any (fun a => p a && q a) then none else (l.filter q).find? p := by
  induction l with
  | nil => rfl
  | cons a l ih =>
    cases hp : p a with
    | false =>
      have hlater : ((a :: l).filter q).find? p = (l.filter q).find? p := by
        cases hq : q a <;> simp [hp, hq]
      rw [hlater, List.find?_cons_of_neg (by simp [hp]), ih, List.any_cons, hp, Bool.false_and, Bool.false_or]
    | true =>
      cases hq : q a with
      | true => simp [hp, hq, Option.filter]
      | false =>
        have hlater : l.any (fun a => p a && q a) = false → (l.filter q).find? p = none := by
          rw [List.any_eq_false, List.find?_eq_none]
          intro hnone b hb hpb
          obtain ⟨hmem, hqb⟩ := List.mem_filter.mp hb
          exact hnone b hmem (by rw [hpb, hqb]; rfl)
        cases hany : l.any fun a => p a && q a with
        | true => simp [hp, hq, hany, Option.filter]
        | false => simp [hp, hq, hany, hlater hany, Option.filter]

namespace Block

private theorem value?_command (b : Block) (key : String) : b.command.value? key =
    ((b.arguments.reverse.find? (hasKey key)).filter numeric).map fun run => readNumber (run.drop 1) := by
  rw [Command.value?, command, parameters_lookup, Option.filter_map]
  rfl

/-- Without the parameters that have no number, a key has the value of the last one that has it. -/
private theorem value?_blanked (text : String) (b : Block) (key : String) : (b.blanked text).command.value? key =
    ((b.arguments.reverse.filter numeric).find? (hasKey key)).map fun run => readNumber (run.drop 1) := by
  rw [value?_command, blanked, ← List.filter_reverse]
  cases hfind : (b.arguments.reverse.filter numeric).find? (hasKey key) with
  | none => rfl
  | some run => rw [Option.filter, if_pos (List.of_mem_filter (List.mem_of_find?_eq_some hfind))]

/-- A key has the value that it has without the parameters that have no number, unless one of these hides it. -/
private theorem value?_eq (text : String) (b : Block) (key : String) :
    b.command.value? key = if b.hides key then none else (b.blanked text).command.value? key := by
  rw [value?_command, value?_blanked, find?_filter_eq, List.any_reverse, ← hides]
  split
  · rfl
  · rfl

/-- A key that is hidden has a value without the parameters that have no number. -/
private theorem isSome_value?_of_hides (text : String) {b : Block} {key : String} (h : b.hides key = true) :
    ((b.blanked text).command.value? key).isSome = true := by
  obtain ⟨run, hmem, hrun⟩ := List.any_eq_true.mp (Bool.and_eq_true_iff.mp h).2
  obtain ⟨hkey, hnumber⟩ := Bool.and_eq_true_iff.mp hrun
  rw [value?_blanked, Option.isSome_map, List.find?_isSome]
  exact ⟨run, List.mem_filter.mpr ⟨List.mem_reverse.mpr hmem, hnumber⟩, hkey⟩

end Block

end Program

def Command.reads (c : Command) : List String :=
  match Instruction.ofCode? c.code with
  | some .cut => ["X", "Y"]
  | some (.arc _) => ["X", "Y", "I", "J"]
  | _ => []

namespace Machine

/-- A command changes the machine and asks for a cut by its code, its line and the values that it reads. -/
private theorem execute_congr (m : Machine) {c d : Command} (hcode : c.code = d.code) (hline : c.line = d.line)
    (hvalues : ∀ key ∈ c.reads, c.value? key = d.value? key) :
    (m.execute c).machine = (m.execute d).machine ∧ (m.execute c).request = (m.execute d).request := by
  have hscaled (key : String) (h : key ∈ c.reads) : m.scaled? c key = m.scaled? d key := by
    rw [scaled?, scaled?, hvalues key h]
  have htarget (hx : "X" ∈ c.reads) (hy : "Y" ∈ c.reads) : m.target c = m.target d := by
    rw [target, target, hscaled "X" hx, hscaled "Y" hy]
  have harc (hx : "X" ∈ c.reads) (hy : "Y" ∈ c.reads) (hi : "I" ∈ c.reads) (hj : "J" ∈ c.reads) (clockwise : Bool) :
      m.arcOf c clockwise = m.arcOf d clockwise := by
    simp only [arcOf, hscaled "I" hi, hscaled "J" hj, htarget hx hy]
  have hperform (i : Instruction) (hi : Instruction.ofCode? c.code = some i) : m.perform c i = m.perform d i := by
    unfold Command.reads at htarget harc
    rw [hi] at htarget harc
    cases i with
    | cut => simp only [perform, htarget (by simp) (by simp), hline]
    | arc clockwise =>
      simp only [perform, htarget (by simp) (by simp), harc (by simp) (by simp) (by simp) (by simp), hline]
    | absolute => rfl
    | relative => rfl
    | setOrigin => rfl
    | finish => simp only [perform, hline]
  unfold execute
  rw [← hcode]
  cases hi : Instruction.ofCode? c.code with
  | none => exact ⟨rfl, rfl⟩
  | some i =>
    dsimp only
    rw [hperform i hi]
    exact ⟨rfl, rfl⟩

/-- Two programs whose commands have the same codes, the same lines and the same values in what they read change the
machine and ask for cuts alike. -/
private theorem executeAll_congr {cs ds : List Command} (h : List.Forall₂ (fun c d => c.code = d.code ∧ c.line = d.line ∧
    ∀ key ∈ c.reads, c.value? key = d.value? key) cs ds) (m : Machine) :
    (m.executeAll cs).map (fun done => (done.machine, done.request)) =
      (m.executeAll ds).map fun done => (done.machine, done.request) := by
  induction h generalizing m with
  | nil => rfl
  | cons hfirst hlater ih =>
    obtain ⟨hcode, hline, hvalues⟩ := hfirst
    obtain ⟨hmachine, hrequest⟩ := m.execute_congr hcode hline hvalues
    rw [executeAll, executeAll, List.map_cons, List.map_cons, ih, hmachine, hrequest]

end Machine

namespace Program

/-- Where the parameters that are warned about are blank, the blocks of a text are the same without them, and there is
nothing left to warn about. A key keeps its value, unless a parameter that has no number stands behind one that has,
so that it hides the number. When no command reads a number that is hidden, the parameters that are warned about have
no effect: command by command, the machine is the same, and so is the cut that it is asked for. -/
theorem ignored_parameters (text : String) :
    warnings (blanked text) = [] ∧
      List.Forall₂ (fun b b' => b'.number = b.number ∧ b'.code = b.code ∧
          b'.arguments = b.arguments.filter numeric ∧
          ∀ key, b.command.value? key = (if b.hides key then none else b'.command.value? key) ∧
            (b.hides key = true → (b'.command.value? key).isSome = true))
        (blocks text) (blocks (blanked text)) ∧
      ((∀ b ∈ blocks text, ∀ key ∈ b.command.reads, b.hides key = false) → ∀ scale,
        ((Machine.powerOn scale).executeAll (commands text)).map (fun done => (done.machine, done.request)) =
          ((Machine.powerOn scale).executeAll (commands (blanked text))).map
            fun done => (done.machine, done.request)) := by
  refine ⟨warnings_blanked text, ?_, fun hread scale => Machine.executeAll_congr ?_ _⟩
  · rw [blocks_blanked, List.forall₂_map_right_iff, List.forall₂_same]
    exact fun b _ => ⟨rfl, rfl, rfl, fun key => ⟨b.value?_eq text key, Block.isSome_value?_of_hides text⟩⟩
  · rw [commands_eq, commands_eq, blocks_blanked, List.map_map, List.forall₂_map_left_iff, List.forall₂_map_right_iff,
      List.forall₂_same]
    intro b hb
    refine ⟨rfl, rfl, fun key hkey => ?_⟩
    rw [b.value?_eq text key, if_neg (by rw [hread b hb key hkey]; exact Bool.false_ne_true)]
    rfl

/-- Parameters without a number in front of a number with their key, alone with their key, and behind a number whose
key the command does not read: none of them has an effect. -/
theorem ignored_parameters_readable :
    let text := " G01 XQ\tX5 Y\nG02 X7 Y2 IQ J1 K2 K\n; G01 X1 XQ\nG92 X1 XQ\nG01 y3"
    (blanked text).toList = " G01   \tX5  \nG02 X7 Y2    J1 K2  \n; G01 X1 XQ\nG92 X1   \nG01 y3".toList ∧
      (warnings text).length = 5 ∧
      ((blocks text).map fun b => (b.hides "K", b.hides "X")) =
        [(false, false), (true, false), (false, true), (false, false)] ∧
      (∀ b ∈ blocks text, ∀ key ∈ b.command.reads, b.hides key = false) ∧
      ((Machine.powerOn 2).executeAll (commands text)).map (fun done => (done.machine, done.request)) =
        ((Machine.powerOn 2).executeAll (commands (blanked text))).map fun done => (done.machine, done.request) := by
  intro text
  have hread : ∀ b ∈ blocks text, ∀ key ∈ b.command.reads, b.hides key = false := by decide +kernel
  exact ⟨by decide +kernel, by decide +kernel, by decide +kernel, hread, (ignored_parameters text).2.2 hread 2⟩

/-- A parameter that is said to be ignored hides the number of an earlier one, and without it the wire moves. -/
theorem ignored_parameter_hides :
    (warnings "G01 X5 XQ").map Diagnostic.message = ["Parameter 'XQ' is not a number and will be ignored"] ∧
      (blanked "G01 X5 XQ").toList = "G01 X5   ".toList ∧
      ((Machine.powerOn 1).executeAll (commands "G01 X5 XQ")).map (fun done => done.machine.position) = [⟨0, 0⟩] ∧
      ((Machine.powerOn 1).executeAll (commands (blanked "G01 X5 XQ"))).map (fun done => done.machine.position) =
        [⟨5, 0⟩] ∧
      ((Machine.powerOn 1).executeAll (commands "G01 X5 XQ")).map (fun done => (done.machine, done.request)) ≠
        ((Machine.powerOn 1).executeAll (commands (blanked "G01 X5 XQ"))).map
          fun done => (done.machine, done.request) := by
  decide +kernel

end Program

end WireCut
