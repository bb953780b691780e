import WireCut.Proofs.Machine.Replay
import WireCut.Proofs.Program.Reach
import WireCut.Proofs.Text.Blanking

/-! Lines that can be left out. A comment, a line with an unknown code and a line behind the end of the program draw
nothing and move nothing, so a text in which such lines are empty has the same commands but for some that have no
effect. -/
namespace WireCut

namespace Program
open Text

def omitting (omitted : Nat → Bool) (text : String) : String :=
  String.ofList (['\n'].intercalate
    ((lines text.toList).mapIdx fun number line => if omitted number then [] else line))

/-- A line of a text that has no effect on the drawing: a comment, a line whose code is unknown, or a line behind an
end command. -/
inductive Idle (text : String) (number : Nat) : Prop where
  | comment (line : List Char) (stands : (lines text.toList)[number]? = some line)
      (marked : (trimLeft line).head? = some commentMark)
  | unknown (line : List Char) (c : Command) (stands : (lines text.toList)[number]? = some line)
      (command : commandOf line number = some c) (code : Instruction.ofCode? c.code = none)
  | behind (earlier : Nat) (line : List Char) (c : Command) (before : earlier < number)
      (stands : (lines text.toList)[earlier]? = some line) (command : commandOf line earlier = some c)
      (ends : c.ends = true)

private theorem lines_omitting (omitted : Nat → Bool) (text : String) :
    lines (omitting omitted text).toList =
      (lines text.toList).mapIdx fun number line => if omitted number then [] else line := by
  rw [omitting, String.toList_ofList]
  apply lines_intercalate
  intro number line hline
  split
  · exact List.not_mem_nil
  · exact hline

/-- The commands of a text with lines left out are those whose lines are not. -/
private theorem commands_omitting (omitted : Nat → Bool) (text : String) :
    commands (omitting omitted text) = (commands text).filter fun c => !omitted c.line.toNat := by
  rw [commands, commands, lines_omitting, zipIdx_mapIdx, List.filterMap_map, List.filter_filterMap]
  congr 1
  funext entry
  obtain ⟨line, number⟩ := entry
  have hempty : commandOf [] number = none := rfl
  change commandOf (if omitted number then [] else line) number =
    (commandOf line number).filter fun c => !omitted c.line.toNat
  cases hc : commandOf line number with
  | none =>
    split
    · exact hempty
    · exact hc
  | some c =>
    have hnumber : c.line.toNat = number := by rw [commandOf_line hc, Int.toNat_natCast]
    rw [Option.filter_some, hnumber]
    cases omitted number with
    | true => exact hempty
    | false => exact hc

/-- A comment has no command. -/
theorem commandOf_comment {line : List Char} (marked : (trimLeft line).head? = some commentMark) (number : Nat) :
    commandOf line number = none := by
  have hhead := words_head line
  rw [commandOf]
  cases hwords : words line with
  | nil => rfl
  | cons w ws =>
    rw [hwords, List.head?_cons, Option.bind_some, marked] at hhead
    exact if_pos hhead

/-- No command within reach stands behind an end command. -/
private theorem line_le_of_ends {cs : List Command} (ascend : (cs.map Command.line).Pairwise (· < ·)) {c d : Command}
    (hc : c ∈ cs.take (reach cs)) (hd : d ∈ cs) (ends : d.ends = true) : c.line ≤ d.line := by
  induction cs with
  | nil => cases hd
  | cons first cs ih =>
    rw [List.map_cons, List.pairwise_cons] at ascend
    rw [reach] at hc
    split at hc
    · obtain rfl := List.mem_singleton.mp hc
      obtain rfl | hlater := List.mem_cons.mp hd
      · exact Int.le_refl _
      · exact Int.le_of_lt (ascend.1 _ (List.mem_map_of_mem hlater))
    · rename_i hfirst
      obtain rfl | hlater := List.mem_cons.mp hd
      · exact absurd ends hfirst
      · rw [List.take_succ_cons] at hc
        obtain rfl | hc := List.mem_cons.mp hc
        · exact Int.le_of_lt (ascend.1 _ (List.mem_map_of_mem hlater))
        · exact ih ascend.2 hc hlater

/-- A command within reach whose line has no effect has an unknown code. -/
private theorem Idle.code_unknown {text : String} {number : Nat} (h : Idle text number) {c : Command}
    (hc : c ∈ (commands text).take (reach (commands text))) (hline : c.line = number) :
    Instruction.ofCode? c.code = none := by
  obtain ⟨number', line', hline', hcommand⟩ := mem_commands.mp (List.mem_of_mem_take hc)
  obtain rfl : number' = number := Int.ofNat_inj.mp ((commandOf_line hcommand).symm.trans hline)
  cases h with
  | comment line stands marked =>
    obtain rfl : line = line' := Option.some.inj (stands.symm.trans hline')
    rw [commandOf_comment marked] at hcommand
    cases hcommand
  | unknown line d stands command code =>
    obtain rfl : line = line' := Option.some.inj (stands.symm.trans hline')
    obtain rfl : d = c := Option.some.inj (command.symm.trans hcommand)
    exact code
  | behind earlier line d before stands command ends =>
    have hle := line_le_of_ends (commands_lines text) hc (mem_commands.mpr ⟨earlier, line, stands, command⟩) ends
    rw [hline, commandOf_line command] at hle
    omega

/-- Leaving out commands that do not end the program leaves the rest of its reach. -/
private theorem take_reach_filter {cs : List Command} {keep : Command → Bool}
    (h : ∀ c ∈ cs.take (reach cs), keep c = false → c.ends = false) :
    (cs.filter keep).take (reach (cs.filter keep)) = (cs.take (reach cs)).filter keep := by
  induction cs with
  | nil => rfl
  | cons c cs ih =>
    rw [reach] at h ⊢
    cases hends : c.ends with
    | true =>
      rw [hends, if_pos rfl, List.take_succ_cons, List.take_zero] at h
      have hkeep : keep c = true := by
        by_contra hkeep
        have := h c List.mem_cons_self (Bool.not_eq_true _ ▸ hkeep)
        rw [hends] at this
        cases this
      rw [if_pos rfl, List.filter_cons_of_pos hkeep, reach, hends, if_pos rfl]
      simp [hkeep]
    | false =>
      rw [hends, if_neg Bool.false_ne_true, List.take_succ_cons, List.forall_mem_cons] at h
      rw [if_neg Bool.false_ne_true, List.take_succ_cons]
      cases hkeep : keep c with
      | true =>
        rw [List.filter_cons_of_pos hkeep, List.filter_cons_of_pos hkeep, reach, hends, if_neg Bool.false_ne_true,
          List.take_succ_cons, ih h.2]
      | false => rw [List.filter_cons_of_neg (by simp [hkeep]), List.filter_cons_of_neg (by simp [hkeep]), ih h.2]

private theorem ends_of_code_unknown {c : Command} (h : Instruction.ofCode? c.code = none) : c.ends = false := by
  rw [Command.ends, decide_eq_false_iff_not]
  intro hcode
  rw [hcode] at h
  cases h

/-- The commands within reach that a text has lost with its lines have unknown codes, and the others are those within
reach of what is left. -/
theorem take_reach_omitting {omitted : Nat → Bool} {text : String}
    (idle : ∀ number < (lines text.toList).length, omitted number = true → Idle text number) :
    (∀ c ∈ (commands text).take (reach (commands text)), (!omitted c.line.toNat) = false →
      Instruction.ofCode? c.code = none) ∧
    (commands (omitting omitted text)).take (reach (commands (omitting omitted text))) =
      ((commands text).take (reach (commands text))).filter fun c => !omitted c.line.toNat := by
  have hunknown : ∀ c ∈ (commands text).take (reach (commands text)), (!omitted c.line.toNat) = false →
      Instruction.ofCode? c.code = none := by
    intro c hc homitted
    obtain ⟨number, line, hline, hcommand⟩ := mem_commands.mp (List.mem_of_mem_take hc)
    have hnumber := commandOf_line hcommand
    rw [hnumber, Int.toNat_natCast, Bool.not_eq_false'] at homitted
    exact (idle number (List.getElem?_eq_some_iff.mp hline).1 homitted).code_unknown hc hnumber
  refine ⟨hunknown, ?_⟩
  rw [commands_omitting]
  exact take_reach_filter fun c hc hkeep => ends_of_code_unknown (hunknown c hc hkeep)

end Program

namespace Machine

theorem execute_unknown (m : Machine) {c : Command} (h : Instruction.ofCode? c.code = none) :
    m.execute c = ⟨m, none, some (unsupported c)⟩ := by
  rw [execute, h]

/-- Commands with unknown codes leave the machine where it is. -/
private theorem replay_filter {cs : List Command} {keep : Command → Bool}
    (h : ∀ c ∈ cs, keep c = false → Instruction.ofCode? c.code = none) (m : Machine) :
    m.replay (cs.filter keep) = m.replay cs := by
  induction cs generalizing m with
  | nil => rfl
  | cons c cs ih =>
    obtain ⟨hfirst, hlater⟩ := List.forall_mem_cons.mp h
    cases hkeep : keep c with
    | true =>
      rw [List.filter_cons_of_pos hkeep]
      exact ih hlater (m.execute c).machine
    | false =>
      have hsame : m.replay (c :: cs) = m.replay cs := by
        rw [replay, List.foldl_cons, m.execute_unknown (hfirst hkeep)]
        rfl
      rw [List.filter_cons_of_neg (by simp [hkeep]), ih hlater, hsame]

/-- What does not tell commands with unknown codes from nothing is the same without them. -/
private theorem filterMap_executeAll_filter {α : Type} {f : Executed → Option α} {cs : List Command} {keep : Command → Bool}
    (h : ∀ c ∈ cs, keep c = false → Instruction.ofCode? c.code = none)
    (hf : ∀ m c, f ⟨m, none, some (unsupported c)⟩ = none) (m : Machine) :
    (m.executeAll (cs.filter keep)).filterMap f = (m.executeAll cs).filterMap f := by
  induction cs generalizing m with
  | nil => rfl
  | cons c cs ih =>
    obtain ⟨hfirst, hlater⟩ := List.forall_mem_cons.mp h
    cases hkeep : keep c with
    | true =>
      rw [List.filter_cons_of_pos hkeep, executeAll, executeAll, List.filterMap_cons, List.filterMap_cons, ih hlater]
    | false =>
      have hnone : f (m.execute c) = none := by rw [m.execute_unknown (hfirst hkeep), hf]
      rw [List.filter_cons_of_neg (by simp [hkeep]), ih hlater, executeAll, List.filterMap_cons_none hnone,
        m.execute_unknown (hfirst hkeep)]

/-- Without commands with unknown codes, a program leaves the same machine, the same strokes and the same reports of
cuts out of range. -/
theorem replay_without_unknown {cs : List Command} {keep : Command → Bool}
    (h : ∀ c ∈ cs, keep c = false → Instruction.ofCode? c.code = none) (m : Machine) (pen : Pen) :
    m.replay (cs.filter keep) = m.replay cs ∧ m.strokesOf pen (cs.filter keep) = m.strokesOf pen cs ∧
      (m.reportsOf (cs.filter keep)).filter (·.kind = .motion) = (m.reportsOf cs).filter (·.kind = .motion) := by
  refine ⟨replay_filter h m, filterMap_executeAll_filter h (fun _ _ => rfl) m, ?_⟩
  rw [reportsOf, reportsOf, List.filter_filterMap, List.filter_filterMap]
  exact filterMap_executeAll_filter h (fun _ _ => rfl) m

end Machine

end WireCut
