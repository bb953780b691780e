import WireCut.Proofs.Program.Source

/-! The reach of a program: how many of its commands are executed before it ends, which it does at its first end
command or after its last command. -/
namespace WireCut

def Command.ends (c : Command) : Bool :=
  c.code = "M02"

namespace Program

def reach : List Command → Nat
  | [] => 0
  | c :: cs => if c.ends then 1 else reach cs + 1

theorem reach_le (cs : List Command) : reach cs ≤ cs.length := by
  induction cs with
  | nil => exact Nat.le_refl _
  | cons c cs ih =>
    rw [reach, List.length_cons]
    split <;> omega

theorem reach_pos {cs : List Command} (h : cs ≠ []) : 0 < reach cs := by
  cases cs with
  | nil => exact absurd rfl h
  | cons c cs =>
    rw [reach]
    split <;> omega

/-- A program reaches to its first end command, or over all its commands. -/
theorem reach_eq_min (cs : List Command) : reach cs = min (cs.findIdx Command.ends + 1) cs.length := by
  induction cs with
  | nil => rfl
  | cons c cs ih =>
    rw [reach, List.findIdx_cons, List.length_cons]
    cases c.ends with
    | true =>
      rw [if_pos rfl, cond_true]
      omega
    | false =>
      rw [if_neg nofun, cond_false, ih]
      omega

/-- A command within reach is the last one exactly when it is an end command or there is none behind it. -/
theorem last_within_reach {cs : List Command} {k : Nat} {c : Command} (h : k < reach cs) (hc : cs[k]? = some c) :
    (c.ends || decide (cs.length ≤ k + 1)) = decide (k + 1 = reach cs) := by
  induction cs generalizing k with
  | nil => cases hc
  | cons d cs ih =>
    rw [reach] at h ⊢
    cases k with
    | zero =>
      obtain rfl : d = c := Option.some.inj hc
      cases hd : d.ends with
      | true => simp
      | false =>
        cases cs with
        | nil => simp [reach]
        | cons e cs =>
          have := reach_pos (List.cons_ne_nil e cs)
          simp
          omega
    | succ k =>
      rw [List.getElem?_cons_succ] at hc
      cases hd : d.ends with
      | true =>
        rw [hd, if_pos rfl] at h
        omega
      | false =>
        rw [hd, if_neg nofun] at h
        have := ih (by omega) hc
        simpa using this

private theorem reach_of_no_end {cs : List Command} (h : ∀ c ∈ cs, c.ends = false) : reach cs = cs.length := by
  induction cs with
  | nil => rfl
  | cons c cs ih =>
    rw [reach, h c List.mem_cons_self, if_neg nofun, ih fun d hd => h d (List.mem_cons_of_mem c hd)]
    rfl

def repeated (line : List Char) (n : Nat) : String :=
  String.ofList (List.replicate n (line ++ ['\n'])).flatten

private theorem lines_repeated {line : List Char} (h : '\n' ∉ line) (n : Nat) :
    Text.lines (repeated line n).toList = List.replicate n line ++ [[]] := by
  rw [repeated, String.toList_ofList, Text.lines]
  induction n with
  | zero => rfl
  | succ n ih =>
    rw [List.replicate_succ, List.flatten_cons, List.append_assoc, List.singleton_append,
      List.splitOn_append_cons_self_of_not_mem h, ih]
    rfl

/-- The commands of a repeated line are as many as the lines, and no line ends the program if its code does not. -/
theorem reach_repeated {line : List Char} (h : '\n' ∉ line)
    (hcommand : ∀ k, ∃ c, commandOf line k = some c ∧ c.ends = false) (n : Nat) :
    (commands (repeated line n)).length = n ∧ reach (commands (repeated line n)) = n := by
  have hcommands (k : Nat) : (((List.replicate n line ++ [[]]).zipIdx k).filterMap
      fun (l, number) => commandOf l number).length = n ∧
      ∀ c ∈ ((List.replicate n line ++ [[]]).zipIdx k).filterMap fun (l, number) => commandOf l number,
        c.ends = false := by
    induction n generalizing k with
    | zero => exact ⟨rfl, nofun⟩
    | succ n ih =>
      obtain ⟨hlength, hends⟩ := ih (k + 1)
      obtain ⟨c, hc, hend⟩ := hcommand k
      rw [List.replicate_succ, List.cons_append, List.zipIdx_cons, List.filterMap_cons]
      simp only [hc, List.length_cons, hlength, List.mem_cons]
      refine ⟨trivial, ?_⟩
      rintro d (rfl | hd)
      · exact hend
      · exact hends d hd
  obtain ⟨hlength, hends⟩ := hcommands 0
  rw [commands, lines_repeated h]
  exact ⟨hlength, (reach_of_no_end hends).trans hlength⟩

end Program

end WireCut
