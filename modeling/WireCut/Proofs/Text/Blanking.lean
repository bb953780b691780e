import WireCut.Proofs.Text.Search
import WireCut.Text.Line

/-! Blanked columns. Where the columns of whole words of a line are made blank, the other words stay where they are,
and nothing joins them. -/
namespace WireCut.Text

def blankAt (covered : Nat → Bool) (line : List Char) : List Char :=
  line.mapIdx fun column c => if covered column then ' ' else c

@[simp]
theorem blankAt_nil (covered : Nat → Bool) : blankAt covered [] = [] :=
  rfl

private theorem blankAt_cons (covered : Nat → Bool) (c : Char) (line : List Char) :
    blankAt covered (c :: line) = (if covered 0 then ' ' else c) :: blankAt (fun k => covered (1 + k)) line := by
  simp only [blankAt, List.mapIdx_cons, Nat.add_comm 1]

private theorem blankAt_append (covered : Nat → Bool) (front line : List Char) :
    blankAt covered (front ++ line) =
      blankAt covered front ++ blankAt (fun k => covered (front.length + k)) line := by
  simp only [blankAt, List.mapIdx_append, Nat.add_comm front.length]

private theorem blankAt_of_uncovered {covered : Nat → Bool} {line : List Char}
    (h : ∀ k < line.length, covered k = false) : blankAt covered line = line := by
  refine List.ext_getElem (by simp [blankAt]) fun k hk hline => ?_
  simp [blankAt, h k hline]

theorem mem_blankAt {covered : Nat → Bool} {line : List Char} {c : Char} (h : c ∈ blankAt covered line) :
    c = ' ' ∨ c ∈ line := by
  obtain ⟨k, hk, rfl⟩ := List.mem_mapIdx.mp h
  split
  · exact .inl rfl
  · exact .inr (List.getElem_mem hk)

private theorem isBlank_of_covered {covered : Nat → Bool} {line : List Char} (h : ∀ k < line.length, covered k = true) :
    ∀ c ∈ blankAt covered line, isBlank c = true := by
  intro c hc
  obtain ⟨k, hk, rfl⟩ := List.mem_mapIdx.mp hc
  rw [if_pos (h k hk)]
  decide

/-- A blank stays a blank, so what stands apart from a run still does. -/
private theorem Parted.blankAt {text : List Char} (h : Parted text) (covered : Nat → Bool) :
    Parted (blankAt covered text) := by
  obtain rfl | ⟨c, rest, rfl, hc⟩ := h.eq_nil_or_cons
  · exact h
  · rw [blankAt_cons]
    intro d hd
    cases hd
    split
    · decide
    · exact hc

/-- Words that share a column are the same. -/
theorem eq_of_shared_column {line : List Char} {v w : Word} (hv : v ∈ words line) (hw : w ∈ words line) {k : Nat}
    (hkv : v.start ≤ k ∧ k < v.stop) (hkw : w.start ≤ k ∧ k < w.stop) : v = w := by
  have hascend := List.pairwise_iff_getElem.mp (words_ascend line)
  obtain ⟨i, hi, rfl⟩ := List.getElem_of_mem hv
  obtain ⟨j, hj, rfl⟩ := List.getElem_of_mem hw
  obtain hij | rfl | hji := Nat.lt_trichotomy i j
  · have := hascend i j hi hj hij
    omega
  · rfl
  · have := hascend j i hj hi hji
    omega

/-- The words of a line whose columns are not covered are the words of the blanked line, if the columns of each word
are covered as a whole or not at all. -/
theorem words_blankAt {covered : Nat → Bool} {line : List Char}
    (h : ∀ w ∈ words line, ∀ k, w.start ≤ k → k < w.stop → covered k = covered w.start) :
    words (blankAt covered line) = (words line).filter fun w => !covered w.start := by
  induction line using line_induction generalizing covered with
  | nil => rfl
  | blank c rest hc ih =>
    rw [words_blank hc, List.forall_mem_map] at h
    have hrest := @ih (fun k => covered (1 + k)) fun w hw k hstart hstop =>
      h w hw (1 + k) (by simpa using hstart) (by simpa using hstop)
    have hblank : isBlank (if covered 0 then ' ' else c) = true := by
      split
      · decide
      · exact hc
    rw [blankAt_cons, words_blank hblank, hrest, words_blank hc, List.filter_map]
    rfl
  | run chars rest hrun hrest ih =>
    rw [words_run hrun hrest, List.forall_mem_cons, List.forall_mem_map] at h
    obtain ⟨hfirst, hlater⟩ := h
    have hwords := @ih (fun k => covered (chars.length + k)) fun w hw k hstart hstop =>
      hlater w hw (chars.length + k) (by simpa using hstart) (by simpa using hstop)
    have hsame (k : Nat) (hk : k < chars.length) : covered k = covered 0 :=
      hfirst k (Nat.zero_le k) (by simpa [Word.stop] using hk)
    have hmap : ((words rest).map (Word.shift chars.length)).filter (fun w => !covered w.start) =
        (words (blankAt (fun k => covered (chars.length + k)) rest)).map (Word.shift chars.length) := by
      rw [hwords, List.filter_map]
      rfl
    rw [words_run hrun hrest, List.filter_cons, hmap, blankAt_append]
    cases hcovered : covered 0 with
    | true =>
      have hgap := @isBlank_of_covered covered chars fun k hk => (hsame k hk).trans hcovered
      rw [words_gap hgap]
      simp [blankAt]
    | false =>
      rw [blankAt_of_uncovered fun k hk => (hsame k hk).trans hcovered, words_run hrun (hrest.blankAt _)]
      rfl

private theorem not_mem_of_mem_lines {text line : List Char} (h : line ∈ lines text) : '\n' ∉ line := by
  induction text generalizing line with
  | nil =>
    cases List.mem_singleton.mp h
    exact List.not_mem_nil
  | cons c text ih =>
    rw [lines, List.splitOn_cons_eq_if_modifyHead, ← lines] at h
    obtain ⟨first, later, hlines⟩ := List.exists_cons_of_ne_nil (List.splitOn_ne_nil '\n' text)
    rw [← lines] at hlines
    rw [hlines] at h ih
    split at h
    · obtain rfl | h := List.mem_cons.mp h
      · exact List.not_mem_nil
      · exact ih h
    · rename_i hc
      rw [List.modifyHead_cons] at h
      obtain rfl | h := List.mem_cons.mp h
      · rw [List.mem_cons, not_or]
        exact ⟨fun heq => hc (beq_iff_eq.mpr heq.symm), ih List.mem_cons_self⟩
      · exact ih (List.mem_cons_of_mem first h)

/-- Lines that are changed one by one are the lines of a text again, if no change brings in a line feed. -/
theorem lines_intercalate (text : List Char) {change : Nat → List Char → List Char}
    (h : ∀ number line, '\n' ∉ line → '\n' ∉ change number line) :
    lines (['\n'].intercalate ((lines text).mapIdx change)) = (lines text).mapIdx change := by
  rw [lines]
  refine List.splitOn_intercalate '\n' (fun l hl => ?_) fun hnil => ?_
  · obtain ⟨number, hnumber, rfl⟩ := List.mem_mapIdx.mp hl
    exact h number _ (not_mem_of_mem_lines (List.getElem_mem hnumber))
  · exact List.splitOn_ne_nil '\n' text (List.mapIdx_eq_nil_iff.mp hnil)

/-- The lines that are changed one by one keep their numbers. -/
theorem zipIdx_mapIdx (ls : List (List Char)) (change : Nat → List Char → List Char) :
    (ls.mapIdx change).zipIdx = ls.zipIdx.map fun (line, number) => (change number line, number) := by
  refine List.ext_getElem? fun k => ?_
  simp [List.getElem?_zipIdx, Function.comp_def]

end WireCut.Text
