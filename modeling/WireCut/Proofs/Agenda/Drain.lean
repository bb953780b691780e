import WireCut.Agenda

/-! What firing the tasks of an agenda keeps. An invariant of one fired task is an invariant of a whole run
of the clock, however many tasks fall due and whatever they schedule. -/
namespace WireCut

namespace Agenda
variable {α σ ε : Type}

def taken (agenda : Agenda α) (due : Int) (rest : List (Entry α)) : Agenda α :=
  { agenda with now := due, entries := rest }

theorem perm_insert (e : Entry α) (xs : List (Entry α)) : (insert e xs).Perm (e :: xs) := by
  induction xs with
  | nil => exact .refl _
  | cons x xs ih =>
    rw [insert]
    split
    · exact .refl _
    · exact (ih.cons x).trans (.swap e x xs)

theorem mem_insert {e x : Entry α} {xs : List (Entry α)} : x ∈ insert e xs ↔ x = e ∨ x ∈ xs := by
  rw [(perm_insert e xs).mem_iff, List.mem_cons]

theorem countP_insert (p : Entry α → Bool) (e : Entry α) (xs : List (Entry α)) :
    (insert e xs).countP p = xs.countP p + if p e then 1 else 0 := by
  rw [(perm_insert e xs).countP_eq, List.countP_cons]

/-- An order in which earlier times come first is kept by an insertion that respects it. -/
theorem pairwise_insert {R : Entry α → Entry α → Prop} {e : Entry α} {xs : List (Entry α)} (h : xs.Pairwise R)
    (due_le : ∀ x y, R x y → x.due ≤ y.due) (before : ∀ x, x ∈ xs → e.due < x.due → R e x)
    (behind : ∀ x, x ∈ xs → x.due ≤ e.due → R x e) : (insert e xs).Pairwise R := by
  induction xs with
  | nil => exact List.pairwise_singleton R e
  | cons x xs ih =>
    obtain ⟨hfirst, hrest⟩ := List.pairwise_cons.mp h
    rw [insert]
    split
    · rename_i hlt
      refine List.pairwise_cons.mpr ⟨?_, h⟩
      intro y hy
      obtain rfl | hlater := List.mem_cons.mp hy
      · exact before y hy hlt
      · exact before y hy (Int.lt_of_lt_of_le hlt (due_le x y (hfirst y hlater)))
    · rename_i hge
      have hnext := ih hrest (fun y hy => before y (List.mem_cons_of_mem x hy))
        fun y hy => behind y (List.mem_cons_of_mem x hy)
      refine List.pairwise_cons.mpr ⟨?_, hnext⟩
      intro y hy
      obtain rfl | hy := mem_insert.mp hy
      · exact behind x List.mem_cons_self (Int.not_lt.mp hge)
      · exact hfirst y hy

theorem entries_schedule (agenda : Agenda α) (delay : Int) (task : α) :
    (agenda.schedule delay task).entries = insert ⟨agenda.now + delay, agenda.issued, task⟩ agenda.entries := rfl

@[simp] theorem scheduleAll_nil (agenda : Agenda α) : agenda.scheduleAll [] = agenda := rfl

@[simp] theorem scheduleAll_singleton (agenda : Agenda α) (delay : Int) (task : α) :
    agenda.scheduleAll [(delay, task)] = agenda.schedule delay task := rfl

theorem now_scheduleAll (agenda : Agenda α) (posts : List (Int × α)) : (agenda.scheduleAll posts).now = agenda.now := by
  induction posts generalizing agenda with
  | nil => rfl
  | cons post posts ih => exact ih (agenda.schedule post.1 post.2)

theorem mem_scheduleAll {agenda : Agenda α} {posts : List (Int × α)} {e : Entry α}
    (h : e ∈ (agenda.scheduleAll posts).entries) : e ∈ agenda.entries ∨ ∃ post ∈ posts, e.task = post.2 := by
  induction posts generalizing agenda with
  | nil => exact .inl h
  | cons post posts ih =>
    obtain hold | ⟨other, hother, htask⟩ := ih h
    · rw [entries_schedule] at hold
      obtain rfl | hold := mem_insert.mp hold
      · exact .inr ⟨post, List.mem_cons_self, rfl⟩
      · exact .inl hold
    · exact .inr ⟨other, List.mem_cons_of_mem post hother, htask⟩

/-- Everything that firing a task can do: it takes the first one, and only if its time is allowed. -/
theorem fire_eq_some {react : σ → Int → α → Reaction σ α ε} {allowed : Int → Bool} {run next : Run σ α ε}
    (h : fire react allowed run = some next) :
    ∃ e rest, run.agenda.entries = e :: rest ∧ allowed e.due = true ∧
      next.agenda = (run.agenda.taken e.due rest).scheduleAll (react run.world e.due e.task).posts ∧
      next.world = (react run.world e.due e.task).world ∧
      next.failure = (react run.world e.due e.task).failure ∧
      next.calls = if next.failure.isNone then run.calls + 1 else run.calls := by
  unfold fire at h
  cases he : run.agenda.entries with
  | nil => simp [he] at h
  | cons e rest =>
    rw [he] at h
    by_cases ha : allowed e.due = true
    · simp only [ha, if_true, Option.some.injEq] at h
      subst h
      exact ⟨e, rest, rfl, ha, rfl, rfl, rfl, rfl⟩
    · simp [ha] at h

theorem fire_of_allowed (react : σ → Int → α → Reaction σ α ε) (allowed : Int → Bool) {run : Run σ α ε}
    {e : Entry α} {rest : List (Entry α)} (he : run.agenda.entries = e :: rest) (ha : allowed e.due = true) :
    ∃ next, fire react allowed run = some next ∧
      next.agenda = (run.agenda.taken e.due rest).scheduleAll (react run.world e.due e.task).posts ∧
      next.world = (react run.world e.due e.task).world ∧
      next.failure = (react run.world e.due e.task).failure := by
  unfold fire
  rw [he]
  simp only [ha, if_true]
  exact ⟨_, rfl, rfl, rfl, rfl⟩

/-- Nothing is fired when nothing waits, or when the first entry is not allowed. -/
theorem fire_eq_none {react : σ → Int → α → Reaction σ α ε} {allowed : Int → Bool} {run : Run σ α ε}
    (h : fire react allowed run = none) :
    run.agenda.entries = [] ∨ ∃ e rest, run.agenda.entries = e :: rest ∧ allowed e.due = false := by
  cases he : run.agenda.entries with
  | nil => exact .inl rfl
  | cons e rest =>
    refine .inr ⟨e, rest, rfl, ?_⟩
    cases ha : allowed e.due with
    | false => rfl
    | true =>
      obtain ⟨next, hfire, -⟩ := fire_of_allowed react allowed he ha
      rw [hfire] at h
      cases h

theorem drain_of_fire_eq_none {react : σ → Int → α → Reaction σ α ε} {allowed : Int → Bool} (limit : Nat)
    {run : Run σ α ε} (h : fire react allowed run = none) : drain react allowed limit run = run := by
  cases limit with
  | zero => rfl
  | succ limit => rw [drain, h]

theorem drain_of_empty (react : σ → Int → α → Reaction σ α ε) (allowed : Int → Bool) (limit : Nat)
    {run : Run σ α ε} (he : run.agenda.entries = []) : drain react allowed limit run = run :=
  drain_of_fire_eq_none limit (by rw [fire, he])

/-- An invariant of one fired task holds after any number of them. -/
private theorem drain_keeps {react : σ → Int → α → Reaction σ α ε} {allowed : Int → Bool} {P : Agenda α → σ → Prop}
    (step : ∀ agenda world e rest, agenda.entries = e :: rest → P agenda world →
      P ((agenda.taken e.due rest).scheduleAll (react world e.due e.task).posts) (react world e.due e.task).world)
    (limit : Nat) (run : Run σ α ε) (h : P run.agenda run.world) :
    P (drain react allowed limit run).agenda (drain react allowed limit run).world := by
  induction limit generalizing run with
  | zero => exact h
  | succ limit ih =>
    rw [drain]
    cases hf : fire react allowed run with
    | none => exact h
    | some next =>
      obtain ⟨e, rest, he, -, hagenda, hworld, -, -⟩ := fire_eq_some hf
      have hnext : P next.agenda next.world := by
        rw [hagenda, hworld]
        exact step run.agenda run.world e rest he h
      dsimp only
      split
      · exact hnext
      · exact ih next hnext

/-- Tasks that do not break off under an invariant that they keep never break off. -/
theorem drain_completes {react : σ → Int → α → Reaction σ α ε} {allowed : Int → Bool} {P : Agenda α → σ → Prop}
    (step : ∀ agenda world e rest, agenda.entries = e :: rest → P agenda world →
      P ((agenda.taken e.due rest).scheduleAll (react world e.due e.task).posts) (react world e.due e.task).world ∧
        (react world e.due e.task).failure = none)
    (limit : Nat) (run : Run σ α ε) (h : P run.agenda run.world) (ok : run.failure = none) :
    (drain react allowed limit run).failure = none := by
  induction limit generalizing run with
  | zero => exact ok
  | succ limit ih =>
    rw [drain]
    cases hf : fire react allowed run with
    | none => exact ok
    | some next =>
      obtain ⟨e, rest, he, -, hagenda, hworld, hfailure, -⟩ := fire_eq_some hf
      obtain ⟨hnext, hnone⟩ := step run.agenda run.world e rest he h
      rw [← hfailure] at hnone
      rw [← hagenda, ← hworld] at hnext
      simp only [hnone, Option.isSome_none, Bool.false_eq_true, if_false]
      exact ih next hnext hnone

/-- A run that breaks off ends with the task that broke off, and an invariant of the tasks before it still holds there. -/
theorem drain_fails {react : σ → Int → α → Reaction σ α ε} {allowed : Int → Bool} {P : Agenda α → σ → Prop}
    (step : ∀ agenda world e rest, agenda.entries = e :: rest → P agenda world →
      P ((agenda.taken e.due rest).scheduleAll (react world e.due e.task).posts) (react world e.due e.task).world)
    (limit : Nat) {run : Run σ α ε} (h : P run.agenda run.world) (ok : run.failure = none) {reason : ε}
    (fails : (drain react allowed limit run).failure = some reason) :
    ∃ agenda world e rest, agenda.entries = e :: rest ∧ P agenda world ∧
      (react world e.due e.task).failure = some reason ∧
      (drain react allowed limit run).agenda = (agenda.taken e.due rest).scheduleAll (react world e.due e.task).posts ∧
      (drain react allowed limit run).world = (react world e.due e.task).world := by
  induction limit generalizing run with
  | zero =>
    rw [drain, ok] at fails
    cases fails
  | succ limit ih =>
    rw [drain] at fails ⊢
    cases hf : fire react allowed run with
    | none =>
      rw [hf] at fails
      rw [ok] at fails
      cases fails
    | some next =>
      rw [hf] at fails
      obtain ⟨e, rest, he, -, hagenda, hworld, hfailure, -⟩ := fire_eq_some hf
      dsimp only at fails ⊢
      cases hnext : next.failure with
      | some cause =>
        rw [hnext, Option.isSome_some, if_pos rfl] at fails
        rw [Option.isSome_some, if_pos rfl]
        exact ⟨run.agenda, run.world, e, rest, he, h, by rw [← hfailure, ← fails, hnext], hagenda, hworld⟩
      | none =>
        rw [hnext, Option.isSome_none, if_neg Bool.false_ne_true] at fails
        rw [Option.isSome_none, if_neg Bool.false_ne_true]
        refine ih ?_ hnext fails
        rw [hagenda, hworld]
        exact step run.agenda run.world e rest he h

theorem runPending_keeps {react : σ → Int → α → Reaction σ α ε} {P : Agenda α → σ → Prop}
    (step : ∀ agenda world e rest, agenda.entries = e :: rest → P agenda world →
      P ((agenda.taken e.due rest).scheduleAll (react world e.due e.task).posts) (react world e.due e.task).world)
    (limit : Nat) (agenda : Agenda α) (world : σ) (h : P agenda world) :
    P (runPending react limit agenda world).agenda (runPending react limit agenda world).world :=
  drain_keeps step limit ⟨agenda, world, 0, none⟩ h

/-- Moving time forward is a run of what is due, and then the clock is set, unless a task has broken off. -/
theorem advance_eq {react : σ → Int → α → Reaction σ α ε} {budget : Nat} {ms : Int} {agenda : Agenda α} {world : σ}
    {out : Run σ α ε}
    (hout : drain react (fun due => decide (due ≤ agenda.now + ms)) budget ⟨agenda, world, 0, none⟩ = out)
    (ok : out.failure = none) :
    agenda.advance react budget ms world = { out with agenda := { out.agenda with now := agenda.now + ms } } := by
  rw [advance, hout, ok]
  rfl

/-- The clock stays where a task has broken off. -/
theorem advance_of_failure {react : σ → Int → α → Reaction σ α ε} {budget : Nat} {ms : Int} {agenda : Agenda α}
    {world : σ} {reason : ε} (fails : (agenda.advance react budget ms world).failure = some reason) :
    agenda.advance react budget ms world =
      drain react (fun due => decide (due ≤ agenda.now + ms)) budget ⟨agenda, world, 0, none⟩ := by
  rw [advance] at fails ⊢
  dsimp only at fails ⊢
  split
  · rfl
  · rename_i hnone
    rw [if_neg hnone] at fails
    exact absurd (Option.isSome_iff_exists.mpr ⟨reason, fails⟩) hnone

/-- The same for time that moves forward, if the clock alone does not matter. -/
theorem advance_keeps {react : σ → Int → α → Reaction σ α ε} {P : Agenda α → σ → Prop}
    (step : ∀ agenda world e rest, agenda.entries = e :: rest → P agenda world →
      P ((agenda.taken e.due rest).scheduleAll (react world e.due e.task).posts) (react world e.due e.task).world)
    (clock : ∀ agenda world now, P agenda world → P { agenda with now } world)
    (budget : Nat) (ms : Int) (agenda : Agenda α) (world : σ) (h : P agenda world) :
    P (advance react budget ms agenda world).agenda (advance react budget ms agenda world).world := by
  unfold advance
  have hd := @drain_keeps α σ ε react (fun due => decide (due ≤ agenda.now + ms)) P step budget
    ⟨agenda, world, 0, none⟩ h
  dsimp only at hd ⊢
  split
  · exact hd
  · exact clock _ _ _ hd

end Agenda

structure Reaction.Lockstep {α σ ε : Type} (W : σ → σ → Prop) (reaction other : Reaction σ α ε) : Prop where
  worlds : W reaction.world other.world
  posts_eq : reaction.posts = other.posts
  failure_eq : reaction.failure = other.failure

structure Run.Lockstep {α σ ε : Type} (W : σ → σ → Prop) (run other : Run σ α ε) : Prop where
  agenda_eq : run.agenda = other.agenda
  worlds : W run.world other.world
  calls_eq : run.calls = other.calls
  failure_eq : run.failure = other.failure

namespace Run.Lockstep
variable {α σ ε : Type} {react : σ → Int → α → Reaction σ α ε} {W : σ → σ → Prop} {run other : Run σ α ε}
variable (alike : ∀ world world', W world world' → ∀ now task, (react world now task).Lockstep W (react world' now task))
include alike

private theorem fire (allowed : Int → Bool) (h : run.Lockstep W other) :
    Option.Rel (Run.Lockstep W) (Agenda.fire react allowed run) (Agenda.fire react allowed other) := by
  rw [Agenda.fire, Agenda.fire, h.agenda_eq]
  cases other.agenda.entries with
  | nil => exact .none
  | cons e rest =>
    dsimp only
    split
    · obtain ⟨hworlds, hposts, hfailure⟩ := alike run.world other.world h.worlds e.due e.task
      refine .some ⟨?_, hworlds, ?_, hfailure⟩
      · rw [hposts]
      · rw [hfailure, h.calls_eq]
    · exact .none

private theorem drain (allowed : Int → Bool) (limit : Nat) (h : run.Lockstep W other) :
    (Agenda.drain react allowed limit run).Lockstep W (Agenda.drain react allowed limit other) := by
  induction limit generalizing run other with
  | zero => exact h
  | succ limit ih =>
    have hfire := fire alike allowed h
    rw [Agenda.drain, Agenda.drain]
    generalize Agenda.fire react allowed run = next, Agenda.fire react allowed other = next' at hfire ⊢
    cases hfire with
    | none => exact h
    | some hnext =>
      dsimp only
      rw [hnext.failure_eq]
      split
      · exact hnext
      · exact ih hnext

theorem runPending (limit : Nat) (agenda : Agenda α) {world world' : σ} (h : W world world') :
    (agenda.runPending react limit world).Lockstep W (agenda.runPending react limit world') :=
  drain alike _ limit ⟨rfl, h, rfl, rfl⟩

theorem advance (budget : Nat) (ms : Int) (agenda : Agenda α) {world world' : σ} (h : W world world') :
    (agenda.advance react budget ms world).Lockstep W (agenda.advance react budget ms world') := by
  have hstart : (⟨agenda, world, 0, none⟩ : Run σ α ε).Lockstep W ⟨agenda, world', 0, none⟩ := ⟨rfl, h, rfl, rfl⟩
  have hdrain := drain alike (fun due => decide (due ≤ agenda.now + ms)) budget hstart
  rw [Agenda.advance, Agenda.advance]
  generalize Agenda.drain react _ budget ⟨agenda, world, 0, none⟩ = run,
    Agenda.drain react _ budget ⟨agenda, world', 0, none⟩ = other at hdrain ⊢
  obtain ⟨after, last, calls, failure⟩ := run
  obtain ⟨rfl, hlast, rfl, rfl⟩ := hdrain
  dsimp only
  split
  · exact ⟨rfl, hlast, rfl, rfl⟩
  · exact ⟨rfl, hlast, rfl, rfl⟩

end Run.Lockstep

end WireCut
