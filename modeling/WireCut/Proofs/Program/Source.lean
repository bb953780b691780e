import WireCut.Program.Command

/-! Commands and their lines in the source. The commands of a text come in the order of their lines, and no
line has two of them. -/
namespace WireCut

namespace Program

theorem commandOf_line {line : List Char} {number : Nat} {c : Command} (h : commandOf line number = some c) :
    c.line = number := by
  unfold commandOf at h
  split at h
  · cases h
  · split at h
    · cases h
    · cases h
      rfl

theorem mem_commands {text : String} {c : Command} :
    c ∈ commands text ↔
      ∃ number line, (Text.lines text.toList)[number]? = some line ∧ commandOf line number = some c := by
  rw [commands, List.mem_filterMap]
  constructor
  · rintro ⟨⟨line, number⟩, hline, hc⟩
    exact ⟨number, line, List.mem_zipIdx_iff_getElem?.mp hline, hc⟩
  · rintro ⟨number, line, hline, hc⟩
    exact ⟨(line, number), List.mem_zipIdx_iff_getElem?.mpr hline, hc⟩

private theorem lines_ascend (ls : List (List Char)) (k : Nat) :
    (((ls.zipIdx k).filterMap fun (line, number) => commandOf line number).map Command.line).Pairwise (· < ·) ∧
      ∀ c ∈ (ls.zipIdx k).filterMap fun (line, number) => commandOf line number, (k : Int) ≤ c.line := by
  induction ls generalizing k with
  | nil => simp
  | cons l ls ih =>
    obtain ⟨hpair, hbound⟩ := ih (k + 1)
    rw [List.zipIdx_cons, List.filterMap_cons]
    cases hc : commandOf l k with
    | none =>
      simp only [hc]
      exact ⟨hpair, fun c hmem => by have := hbound c hmem; omega⟩
    | some c =>
      have hline := commandOf_line hc
      simp only [hc, List.map_cons, List.pairwise_cons, List.mem_map, List.mem_cons]
      refine ⟨⟨?_, hpair⟩, ?_⟩
      · rintro _ ⟨d, hd, rfl⟩
        have := hbound d hd
        omega
      · rintro d (rfl | hd)
        · omega
        · have := hbound d hd
          omega

/-- The commands of a text come in the order of their lines. -/
theorem commands_lines (text : String) : ((commands text).map Command.line).Pairwise (· < ·) :=
  (lines_ascend (Text.lines text.toList) 0).1

theorem warnings_kind {text : String} {d : Diagnostic} (h : d ∈ warnings text) : d.kind = .spelling := by
  obtain ⟨⟨line, number⟩, -, hd⟩ := List.mem_flatMap.mp h
  dsimp only at hd
  unfold warningsOf at hd
  split at hd
  · cases hd
  · split at hd
    · cases hd
    · obtain ⟨w, -, rfl⟩ := List.mem_map.mp hd
      rfl

end Program

end WireCut
