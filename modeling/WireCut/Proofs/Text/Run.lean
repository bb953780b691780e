import Mathlib.Data.List.TakeWhile
import WireCut.Text.Word

/-! Runs of a line, and where they stand. The words of a line are its runs of characters that are not blank, each
with its own column, and they stand apart from left to right. -/
namespace WireCut.Text

def runs (line : List Char) : List (List Char) :=
  (line.splitOnP isBlank).filter (!·.isEmpty)

structure IsRun (chars : List Char) : Prop where
  nonempty : chars ≠ []
  solid : ∀ c ∈ chars, isBlank c = false

/-- A text in front of which a run can end: it is empty or begins with a blank. -/
def Parted (text : List Char) : Prop :=
  ∀ c ∈ text.head?, isBlank c = true

/-- A line that sets runs apart: it has blanks in front of the first run, between every two, and behind the last. -/
inductive SetApart : List (List Char) → List Char → Prop where
  | gap {gap : List Char} (blank : ∀ c ∈ gap, isBlank c = true) : SetApart [] gap
  | run {gap chars rest : List Char} {rs : List (List Char)} (blank : ∀ c ∈ gap, isBlank c = true)
      (run : IsRun chars) (parted : Parted rest) (later : SetApart rs rest) :
      SetApart (chars :: rs) (gap ++ (chars ++ rest))

namespace Word

def shift (n : Nat) (w : Word) : Word :=
  ⟨n + w.start, w.chars⟩

@[simp]
theorem shift_chars (n : Nat) (w : Word) : (w.shift n).chars = w.chars :=
  rfl

@[simp]
theorem shift_start (n : Nat) (w : Word) : (w.shift n).start = n + w.start :=
  rfl

@[simp]
theorem shift_stop (n : Nat) (w : Word) : (w.shift n).stop = n + w.stop :=
  Nat.add_assoc n w.start w.chars.length

@[simp]
theorem shift_zero : shift 0 = id :=
  funext fun w => congrArg (Word.mk · w.chars) (Nat.zero_add w.start)

theorem shift_shift (m n : Nat) (w : Word) : (w.shift n).shift m = w.shift (m + n) := by
  simp [shift, Nat.add_assoc]

/-- A word stands in a line: the line has its characters in its columns, and they are a maximal run there. -/
structure StandsIn (w : Word) (line : List Char) : Prop where
  run : IsRun w.chars
  place : ∃ before behind, line = before ++ (w.chars ++ behind) ∧ before.length = w.start ∧
    Parted before.reverse ∧ Parted behind

end Word

theorem IsRun.eq_cons {chars : List Char} (h : IsRun chars) : ∃ c cs, chars = c :: cs ∧ isBlank c = false := by
  obtain ⟨c, cs, rfl⟩ := List.exists_cons_of_ne_nil h.nonempty
  exact ⟨c, cs, rfl, h.solid c List.mem_cons_self⟩

theorem Parted.eq_nil_or_cons {text : List Char} (h : Parted text) :
    text = [] ∨ ∃ c rest, text = c :: rest ∧ isBlank c = true := by
  cases text with
  | nil => exact .inl rfl
  | cons c rest => exact .inr ⟨c, rest, rfl, h c rfl⟩

/-- A text in front of which a run can end has no character of the run. -/
private theorem Parted.eq_nil_of_solid {front text : List Char} (h : Parted (front ++ text))
    (hsolid : ∀ c ∈ front, isBlank c = false) : front = [] := by
  cases front with
  | nil => rfl
  | cons c cs =>
    have hblank := h c rfl
    rw [hsolid c List.mem_cons_self] at hblank
    cases hblank

private theorem Parted.of_append {front text : List Char} (h : Parted (front ++ text)) : Parted front := by
  intro c hc
  refine h c ?_
  rw [List.head?_append, Option.mem_def.mp hc]
  rfl

theorem Parted.append {front : List Char} (h : Parted front) (hne : front ≠ []) (text : List Char) :
    Parted (front ++ text) := by
  obtain ⟨c, cs, rfl⟩ := List.exists_cons_of_ne_nil hne
  exact h

/-- A run goes up to the next blank, so a text begins with one run only. -/
private theorem IsRun.unique {a b x y : List Char} (ha : IsRun a) (hb : IsRun b) (hx : Parted x) (hy : Parted y)
    (h : a ++ x = b ++ y) : a = b := by
  obtain ⟨front, rfl, rfl⟩ | ⟨front, rfl, rfl⟩ := List.append_eq_append_iff.mp h
  · rw [hx.eq_nil_of_solid fun c hc => hb.solid c (List.mem_append_right a hc), List.append_nil]
  · rw [hy.eq_nil_of_solid fun c hc => ha.solid c (List.mem_append_right b hc), List.append_nil]

/-- A line is read from the left: a blank is passed over, and a run is taken as a whole. -/
theorem line_induction {motive : List Char → Prop} (nil : motive [])
    (blank : ∀ c rest, isBlank c = true → motive rest → motive (c :: rest))
    (run : ∀ chars rest, IsRun chars → Parted rest → motive rest → motive (chars ++ rest))
    (line : List Char) : motive line := by
  induction h : line.length using Nat.strongRecOn generalizing line with
  | ind n ih =>
    subst h
    cases line with
    | nil => exact nil
    | cons c cs =>
      cases hc : isBlank c with
      | true => exact blank c cs hc (ih cs.length (Nat.lt_succ_self _) cs rfl)
      | false =>
        have hsplit := List.takeWhile_append_dropWhile (p := (!isBlank ·)) (l := c :: cs)
        have hlength := congrArg List.length hsplit
        have htake : (c :: cs).takeWhile (!isBlank ·) ≠ [] := by simp [hc]
        have := List.length_pos_iff.mpr htake
        rw [List.length_append] at hlength
        rw [← hsplit]
        refine run _ _ ⟨htake, fun d hd => ?_⟩ (fun d hd => ?_) (ih _ (by omega) _ rfl)
        · simpa using List.mem_takeWhile_imp hd
        · have := List.head?_dropWhile_not (!isBlank ·) (c :: cs)
          rw [Option.mem_def.mp hd] at this
          simpa using this

@[simp]
theorem runs_nil : runs [] = [] :=
  rfl

theorem runs_blank {c : Char} (h : isBlank c = true) (rest : List Char) : runs (c :: rest) = runs rest := by
  simp [runs, List.splitOnP_cons_eq_if_modifyHead, h]

theorem runs_run {chars rest : List Char} (h : IsRun chars) (hrest : Parted rest) :
    runs (chars ++ rest) = chars :: runs rest := by
  have hne : chars.isEmpty = false := List.isEmpty_eq_false_iff.mpr h.nonempty
  obtain rfl | ⟨b, rest, rfl, hb⟩ := hrest.eq_nil_or_cons
  · simp [runs, List.splitOnP_eq_singleton h.solid, hne]
  · rw [runs_blank hb, runs, List.splitOnP_append_cons_of_forall_mem h.solid b hb, List.filter_cons, hne]
    rfl

theorem isRun_of_mem_runs {line chars : List Char} (h : chars ∈ runs line) : IsRun chars := by
  induction line using line_induction with
  | nil => cases h
  | blank c rest hc ih => exact ih (runs_blank hc rest ▸ h)
  | run run rest hrun hrest ih =>
    rw [runs_run hrun hrest] at h
    cases h with
    | head => exact hrun
    | tail _ h => exact ih h

private theorem runs_gap {gap : List Char} (h : ∀ c ∈ gap, isBlank c = true) (line : List Char) :
    runs (gap ++ line) = runs line := by
  induction gap with
  | nil => rfl
  | cons c gap ih =>
    rw [List.cons_append, runs_blank (h c List.mem_cons_self), ih fun d hd => h d (List.mem_cons_of_mem c hd)]

/-- A line has given runs exactly when it sets them apart with blanks, and which blanks these are does not matter. -/
theorem runs_eq_iff {line : List Char} {rs : List (List Char)} : runs line = rs ↔ SetApart rs line := by
  constructor
  · rintro rfl
    induction line using line_induction with
    | nil => exact .gap nofun
    | blank c rest hc ih =>
      rw [runs_blank hc]
      generalize runs rest = rs at ih
      cases ih with
      | gap hgap => exact .gap (List.forall_mem_cons.mpr ⟨hc, hgap⟩)
      | run hgap hrun hparted hrest => exact .run (List.forall_mem_cons.mpr ⟨hc, hgap⟩) hrun hparted hrest
    | run chars rest hrun hrest ih =>
      rw [runs_run hrun hrest]
      exact .run (List.forall_mem_nil _) hrun hrest ih
  · intro h
    induction h with
    | gap hgap => simpa using runs_gap hgap []
    | run hgap hrun hparted hrest ih => rw [runs_gap hgap, runs_run hrun hparted, ih]

private theorem wordsFrom_add (k j : Nat) (line : List Char) :
    wordsFrom (k + j) line = (wordsFrom j line).map (Word.shift k) := by
  induction line generalizing j with
  | nil => rfl
  | cons c cs ih =>
    rw [wordsFrom, wordsFrom, Nat.add_assoc, ih]
    cases isBlank c with
    | true => rfl
    | false =>
      cases wordsFrom (j + 1) cs with
      | nil => rfl
      | cons w ws =>
        by_cases hw : w.start = j + 1 <;> simp [hw, Word.shift]

private theorem wordsFrom_eq (k : Nat) (line : List Char) : wordsFrom k line = (words line).map (Word.shift k) :=
  wordsFrom_add k 0 line

theorem words_blank {c : Char} (h : isBlank c = true) (rest : List Char) :
    words (c :: rest) = (words rest).map (Word.shift 1) := by
  rw [words, wordsFrom_blank h, wordsFrom_eq]

/-- A character that is not blank joins the run behind it. -/
private theorem wordsFrom_cons_run {k : Nat} {c : Char} {cs : List Char} {w : Word} {ws : List Word}
    (h : isBlank c = false) (hws : wordsFrom (k + 1) cs = w :: ws) (hw : w.start = k + 1) :
    wordsFrom k (c :: cs) = ⟨k, c :: w.chars⟩ :: ws := by
  simp [wordsFrom, h, hws, hw]

/-- A character in front of a blank or of nothing is a run of its own. -/
private theorem wordsFrom_cons_parted {k : Nat} {c : Char} {rest : List Char} (h : isBlank c = false)
    (hrest : Parted rest) : wordsFrom k (c :: rest) = ⟨k, [c]⟩ :: wordsFrom (k + 1) rest := by
  obtain rfl | ⟨b, rest, rfl, hb⟩ := hrest.eq_nil_or_cons
  · simp [wordsFrom, h]
  · rw [wordsFrom, wordsFrom_blank hb, wordsFrom_eq (k + 1 + 1)]
    cases words rest with
    | nil => simp [h]
    | cons w ws =>
      have : ¬ k + 1 + 1 + w.start = k + 1 := by omega
      simp [h, this]

private theorem wordsFrom_run {k : Nat} {chars rest : List Char} (h : IsRun chars) (hrest : Parted rest) :
    wordsFrom k (chars ++ rest) = ⟨k, chars⟩ :: wordsFrom (k + chars.length) rest := by
  obtain ⟨hne, hsolid⟩ := h
  induction chars generalizing k with
  | nil => exact absurd rfl hne
  | cons c cs ih =>
    have hc := hsolid c List.mem_cons_self
    cases cs with
    | nil => exact wordsFrom_cons_parted hc hrest
    | cons d ds =>
      have := ih (k := k + 1) nofun fun e he => hsolid e (List.mem_cons_of_mem c he)
      rw [List.cons_append, wordsFrom_cons_run hc this rfl, List.length_cons (a := c), Nat.add_assoc k 1,
        Nat.add_comm 1]

theorem words_run {chars rest : List Char} (h : IsRun chars) (hrest : Parted rest) :
    words (chars ++ rest) = ⟨0, chars⟩ :: (words rest).map (Word.shift chars.length) := by
  rw [words, wordsFrom_run h hrest, Nat.zero_add, wordsFrom_eq]

/-- The words of a line are its runs. -/
theorem words_chars (line : List Char) : (words line).map Word.chars = runs line := by
  induction line using line_induction with
  | nil => rfl
  | blank c rest hc ih =>
    rw [words_blank hc, runs_blank hc, List.map_map, ← ih]
    rfl
  | run chars rest h hrest ih =>
    rw [words_run h hrest, runs_run h hrest, List.map_cons, List.map_map, ← ih]
    rfl

/-- The words of a line stand apart, from left to right. -/
theorem words_ascend (line : List Char) : (words line).Pairwise fun a b => a.stop < b.start := by
  induction line using line_induction with
  | nil => exact .nil
  | blank c rest hc ih =>
    rw [words_blank hc, List.pairwise_map]
    exact ih.imp fun h => by simpa using h
  | run chars rest h hrest ih =>
    rw [words_run h hrest, List.pairwise_cons, List.pairwise_map]
    refine ⟨fun w hw => ?_, ih.imp fun h => by simpa using h⟩
    obtain ⟨v, hv, rfl⟩ := List.mem_map.mp hw
    -- a word behind the run stands behind a blank, so not in the first column of the rest
    obtain rfl | ⟨b, rest, rfl, hb⟩ := hrest.eq_nil_or_cons
    · cases hv
    · rw [words_blank hb] at hv
      obtain ⟨u, -, rfl⟩ := List.mem_map.mp hv
      simp only [Word.stop, Word.shift_start]
      omega

namespace Word

private theorem standsIn_nil (w : Word) : ¬ w.StandsIn [] := by
  rintro ⟨hrun, before, behind, hline, -⟩
  have := hrun.nonempty
  simp_all

private theorem standsIn_blank {c : Char} (hc : isBlank c = true) {rest : List Char} {w : Word} :
    w.StandsIn (c :: rest) ↔ ∃ v : Word, v.StandsIn rest ∧ v.shift 1 = w := by
  constructor
  · rintro ⟨hrun, before, behind, hline, hlength, hbefore, hbehind⟩
    cases before with
    | nil =>
      obtain ⟨d, ds, hchars, hd⟩ := hrun.eq_cons
      rw [hchars] at hline
      obtain rfl : c = d := (List.cons.inj hline).1
      simp [hc] at hd
    | cons b before =>
      obtain ⟨rfl, rfl⟩ := List.cons.inj hline
      rw [List.reverse_cons] at hbefore
      refine ⟨⟨before.length, w.chars⟩, ⟨hrun, before, behind, rfl, rfl, hbefore.of_append, hbehind⟩, ?_⟩
      rw [shift, Nat.add_comm, ← List.length_cons, hlength]
  · rintro ⟨v, ⟨hrun, before, behind, rfl, hlength, hbefore, hbehind⟩, rfl⟩
    refine ⟨hrun, c :: before, behind, rfl, by simp [hlength, Nat.add_comm], ?_, hbehind⟩
    rw [List.reverse_cons]
    by_cases hnil : before.reverse = []
    · rw [hnil]
      exact fun d hd => Option.some.inj hd ▸ hc
    · exact hbefore.append hnil _

private theorem standsIn_run {chars rest : List Char} (h : IsRun chars) (hrest : Parted rest) {w : Word} :
    w.StandsIn (chars ++ rest) ↔ w = ⟨0, chars⟩ ∨ ∃ v : Word, v.StandsIn rest ∧ v.shift chars.length = w := by
  constructor
  · rintro ⟨hrun, before, behind, hline, hlength, hbefore, hbehind⟩
    obtain ⟨front, rfl, hrest'⟩ | ⟨front, rfl, rfl⟩ := List.append_eq_append_iff.mp hline.symm
    · left
      -- what stands before the word is part of the run, and yet would end with a blank
      have hnil : before.reverse = [] := by
        rw [← List.append_nil before.reverse] at hbefore
        exact hbefore.eq_nil_of_solid fun c hc => h.solid c (List.mem_append_left front (List.mem_reverse.mp hc))
      rw [List.reverse_eq_nil_iff] at hnil
      subst hnil
      have hchars : front = w.chars := h.unique hrun hrest hbehind hrest'.symm
      rw [List.nil_append, hchars]
      exact congrArg (Word.mk · w.chars) hlength.symm
    · right
      rw [List.reverse_append] at hbefore
      refine ⟨⟨front.length, w.chars⟩, ⟨hrun, front, behind, rfl, rfl, hbefore.of_append, hbehind⟩, ?_⟩
      rw [shift, ← List.length_append, hlength]
  · rintro (rfl | ⟨v, ⟨hrun, before, behind, rfl, hlength, hbefore, hbehind⟩, rfl⟩)
    · exact ⟨h, [], rest, rfl, rfl, nofun, hrest⟩
    · refine ⟨hrun, chars ++ before, behind, by simp, by simp [hlength], ?_, hbehind⟩
      rw [List.reverse_append]
      refine hbefore.append (fun hnil => ?_) _
      rw [List.reverse_eq_nil_iff] at hnil
      subst hnil
      have hparted : Parted (v.chars ++ behind) := hrest
      exact hrun.nonempty (hparted.eq_nil_of_solid hrun.solid)

end Word

/-- The words of a line are those that stand in it. -/
theorem mem_words {line : List Char} {w : Word} : w ∈ words line ↔ w.StandsIn line := by
  induction line using line_induction generalizing w with
  | nil => exact iff_of_false List.not_mem_nil w.standsIn_nil
  | blank c rest hc ih => rw [words_blank hc, Word.standsIn_blank hc, List.mem_map, exists_congr fun v => by rw [ih]]
  | run chars rest h hrest ih =>
    rw [words_run h hrest, Word.standsIn_run h hrest, List.mem_cons, List.mem_map,
      exists_congr fun v => by rw [ih]]

/-- The columns of a word hold its characters. -/
theorem Word.StandsIn.slice {line : List Char} {w : Word} (h : w.StandsIn line) :
    (line.take w.stop).drop w.start = w.chars := by
  obtain ⟨-, before, behind, rfl, hlength, -⟩ := h
  rw [Word.stop, ← hlength, List.take_length_add_append, List.drop_left, List.take_left]

end WireCut.Text
