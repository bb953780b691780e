import WireCut.Proofs.Agenda.Drain

/-! The history of an agenda. Whatever is scheduled, also by tasks while they run, is run once at its time or still
waits, tasks run in the order of their times and tickets, and the clock never goes back. -/
namespace WireCut

def Entry.Before {α : Type} (x y : Entry α) : Prop :=
  x.due < y.due ∨ x.due = y.due ∧ x.ticket < y.ticket

private theorem Entry.Before.due_le {α : Type} {x y : Entry α} (h : x.Before y) : x.due ≤ y.due := by
  rcases h with h | ⟨h, -⟩ <;> omega

structure Firing (α : Type) where
  entry : Entry α
  clock : Int
  posted : List (Entry α)
deriving DecidableEq

namespace Agenda
variable {α σ ε : Type}

def entriesOf (agenda : Agenda α) : List (Int × α) → List (Entry α)
  | [] => []
  | (delay, task) :: posts =>
    ⟨agenda.now + delay, agenda.issued, task⟩ :: (agenda.schedule delay task).entriesOf posts

def firings (react : σ → Int → α → Reaction σ α ε) (allowed : Int → Bool) : Nat → Run σ α ε → List (Firing α)
  | 0, _ => []
  | limit + 1, run =>
    match run.agenda.entries, fire react allowed run with
    | e :: rest, some next =>
      ⟨e, next.agenda.now, (run.agenda.taken e.due rest).entriesOf (react run.world e.due e.task).posts⟩ ::
        if next.failure.isSome then [] else firings react allowed limit next
    | _, _ => []

/-- Tasks that never break off and schedule nothing for a time that has passed. -/
structure Calm (react : σ → Int → α → Reaction σ α ε) : Prop where
  completes : ∀ world now task, (react world now task).failure = none
  forward : ∀ world now task, ∀ post ∈ (react world now task).posts, 0 ≤ post.1

/-- An agenda beside everything that was ever scheduled, oldest first, and the tasks that were run. What was run
comes before what still waits, and the two together are what was scheduled. -/
structure Orderly (agenda : Agenda α) (scheduled : List (Entry α)) (fired : List (Firing α)) : Prop where
  tickets : scheduled.map Entry.ticket = List.range agenda.issued
  kept : (fired.map Firing.entry ++ agenda.entries).Perm scheduled
  ordered : (fired.map Firing.entry ++ agenda.entries).Pairwise Entry.Before
  punctual : ∀ f ∈ fired, f.clock = f.entry.due
  past : ∀ f ∈ fired, f.entry.due ≤ agenda.now
  ahead : ∀ e ∈ agenda.entries, agenda.now ≤ e.due

/-- A new entry has the last ticket, so that it runs behind the others of its time. -/
private theorem ordered_insert {e : Entry α} {xs : List (Entry α)} (h : xs.Pairwise Entry.Before)
    (latest : ∀ x ∈ xs, x.ticket < e.ticket) : (insert e xs).Pairwise Entry.Before := by
  refine pairwise_insert h (fun x y hbefore => hbefore.due_le) (fun x _ hlt => .inl hlt) ?_
  intro x hx hle
  have := latest x hx
  rw [Entry.Before]
  omega

namespace Orderly
variable {agenda : Agenda α} {scheduled : List (Entry α)} {fired : List (Firing α)}

private theorem ticket_lt (h : Orderly agenda scheduled fired) {e : Entry α}
    (he : e ∈ fired.map Firing.entry ++ agenda.entries) : e.ticket < agenda.issued := by
  have hticket := List.mem_map_of_mem (f := Entry.ticket) (h.kept.mem_iff.mp he)
  rwa [h.tickets, List.mem_range] at hticket

/-- A new entry is not due before anything that was run, and has the last ticket. -/
private theorem schedule (h : Orderly agenda scheduled fired) {delay : Int} (hdelay : 0 ≤ delay) (task : α) :
    Orderly (agenda.schedule delay task) (scheduled ++ [⟨agenda.now + delay, agenda.issued, task⟩]) fired := by
  obtain ⟨hfired, hwaiting, hcross⟩ := List.pairwise_append.mp h.ordered
  refine ⟨?_, ?_, ?_, h.punctual, h.past, ?_⟩
  · rw [List.map_append, h.tickets]
    exact List.range_succ.symm
  · rw [entries_schedule]
    refine ((perm_insert _ _).append_left _).trans (List.perm_middle.trans ?_)
    exact (h.kept.cons _).trans (List.perm_append_singleton _ _).symm
  · rw [entries_schedule]
    refine List.pairwise_append.mpr ⟨hfired, ordered_insert hwaiting ?_, ?_⟩
    · exact fun x hx => h.ticket_lt (List.mem_append_right _ hx)
    · intro x hx y hy
      obtain rfl | hy := mem_insert.mp hy
      · have hticket := h.ticket_lt (List.mem_append_left agenda.entries hx)
        obtain ⟨f, hf, rfl⟩ := List.mem_map.mp hx
        have := h.past f hf
        simp only [Entry.Before]
        omega
      · exact hcross x hx y hy
  · intro e he
    obtain rfl | he := mem_insert.mp he
    · exact Int.le_add_of_nonneg_right hdelay
    · exact h.ahead e he

private theorem scheduleAll (h : Orderly agenda scheduled fired) {posts : List (Int × α)}
    (hposts : ∀ post ∈ posts, 0 ≤ post.1) :
    Orderly (agenda.scheduleAll posts) (scheduled ++ agenda.entriesOf posts) fired := by
  induction posts generalizing agenda scheduled with
  | nil => simpa [entriesOf] using h
  | cons post posts ih =>
    have hnext := ih (h.schedule (hposts post List.mem_cons_self) post.2)
      fun other hother => hposts other (List.mem_cons_of_mem post hother)
    rwa [List.append_assoc, List.singleton_append] at hnext

/-- The first entry is the one that comes before all others, and the clock is set to its time. -/
private theorem taken (h : Orderly agenda scheduled fired) {e : Entry α} {rest : List (Entry α)}
    (he : agenda.entries = e :: rest) (posted : List (Entry α)) :
    Orderly (agenda.taken e.due rest) scheduled (fired ++ [⟨e, e.due, posted⟩]) := by
  have hmoved : (fired ++ [Firing.mk e e.due posted]).map Firing.entry ++ rest =
      fired.map Firing.entry ++ agenda.entries := by
    simp [he]
  have hnow : agenda.now ≤ e.due := h.ahead e (by rw [he]; exact List.mem_cons_self)
  refine ⟨h.tickets, ?_, ?_, ?_, ?_, ?_⟩
  · rw [Agenda.taken, hmoved]
    exact h.kept
  · rw [Agenda.taken, hmoved]
    exact h.ordered
  · intro f hf
    obtain hf | hf := List.mem_append.mp hf
    · exact h.punctual f hf
    · rw [List.mem_singleton.mp hf]
  · intro f hf
    obtain hf | hf := List.mem_append.mp hf
    · exact Int.le_trans (h.past f hf) hnow
    · rw [List.mem_singleton.mp hf]
      exact Int.le_refl _
  · intro x hx
    have hwaiting := (List.pairwise_append.mp h.ordered).2.1
    rw [he] at hwaiting
    exact ((List.pairwise_cons.mp hwaiting).1 x hx).due_le

/-- The clock may be set to a time between what was run and what waits. -/
private theorem wait (h : Orderly agenda scheduled fired) {now : Int} (past : ∀ f ∈ fired, f.entry.due ≤ now)
    (ahead : ∀ e ∈ agenda.entries, now ≤ e.due) : Orderly { agenda with now } scheduled fired :=
  ⟨h.tickets, h.kept, h.ordered, h.punctual, past, ahead⟩

end Orderly

structure Fires (react : σ → Int → α → Reaction σ α ε) (scheduled : List (Entry α)) (fired fs : List (Firing α))
    (run out : Run σ α ε) : Prop where
  orderly : Orderly out.agenda (scheduled ++ fs.flatMap Firing.posted) (fired ++ fs)
  ok : out.failure = none
  counted : out.calls = run.calls + fs.length
  after : ∀ f ∈ fs, run.agenda.now ≤ f.clock
  later : run.agenda.now ≤ out.agenda.now
  effects : out.world = fs.foldl (fun world f => (react world f.clock f.entry.task).world) run.world

namespace Fires
variable {react : σ → Int → α → Reaction σ α ε} {scheduled : List (Entry α)} {fired fs gs : List (Firing α)}
variable {run mid out : Run σ α ε}

private theorem refl (h : Orderly run.agenda scheduled fired) (ok : run.failure = none) :
    Fires react scheduled fired [] run run := by
  refine ⟨?_, ok, rfl, ?_, Int.le_refl _, rfl⟩
  · simpa using h
  · intro f hf
    cases hf

private theorem trans (first : Fires react scheduled fired fs run mid)
    (second : Fires react (scheduled ++ fs.flatMap Firing.posted) (fired ++ fs) gs mid out) :
    Fires react scheduled fired (fs ++ gs) run out := by
  refine ⟨?_, second.ok, ?_, ?_, Int.le_trans first.later second.later, ?_⟩
  · rw [List.flatMap_append, ← List.append_assoc, ← List.append_assoc]
    exact second.orderly
  · rw [second.counted, first.counted, List.length_append, Nat.add_assoc]
  · intro f hf
    obtain hf | hf := List.mem_append.mp hf
    · exact first.after f hf
    · exact Int.le_trans first.later (second.after f hf)
  · rw [second.effects, first.effects, List.foldl_append]

end Fires

namespace Orderly
variable {agenda : Agenda α} {scheduled : List (Entry α)} {fired : List (Firing α)}
variable {react : σ → Int → α → Reaction σ α ε} {run next : Run σ α ε}

/-- What firing one task does. -/
private theorem fire (calm : Calm react) {allowed : Int → Bool} (h : Orderly run.agenda scheduled fired)
    (hf : Agenda.fire react allowed run = some next) :
    ∃ f, Fires react scheduled fired [f] run next ∧ allowed f.clock = true ∧
      ∀ limit, firings react allowed (limit + 1) run = f :: firings react allowed limit next := by
  obtain ⟨e, rest, he, hallowed, hagenda, hworld, hfailure, hcalls⟩ := fire_eq_some hf
  rw [calm.completes] at hfailure
  rw [hfailure] at hcalls
  have hposts := calm.forward run.world e.due e.task
  generalize hposted : (run.agenda.taken e.due rest).entriesOf (react run.world e.due e.task).posts = posted
  have hclock : next.agenda.now = e.due := by
    rw [hagenda]
    exact now_scheduleAll _ _
  have hnow : run.agenda.now ≤ e.due := h.ahead e (by rw [he]; exact List.mem_cons_self)
  refine ⟨⟨e, e.due, posted⟩, ⟨?_, hfailure, hcalls, ?_, ?_, hworld⟩, hallowed, ?_⟩
  · rw [List.flatMap_singleton, hagenda, ← hposted]
    exact (h.taken he _).scheduleAll hposts
  · intro f hf
    rwa [List.mem_singleton.mp hf]
  · rwa [hclock]
  · intro limit
    rw [firings, he, hf]
    simp [hfailure, hclock, hposted]

/-- A run keeps an agenda orderly, and it ends where nothing is allowed any more, unless it has used up its limit. -/
private theorem drain (calm : Calm react) (allowed : Int → Bool) (limit : Nat) (run : Run σ α ε) (ok : run.failure = none)
    (h : Orderly run.agenda scheduled fired) :
    let fs := firings react allowed limit run
    let out := Agenda.drain react allowed limit run
    Fires react scheduled fired fs run out ∧ (∀ f ∈ fs, allowed f.clock = true) ∧
      (out.calls < run.calls + limit → Agenda.fire react allowed out = none) := by
  induction limit generalizing run scheduled fired with
  | zero =>
    refine ⟨.refl h ok, ?_, ?_⟩
    · intro f hf
      cases hf
    · exact fun hlt => absurd hlt (Nat.lt_irrefl _)
  | succ limit ih =>
    cases hf : Agenda.fire react allowed run with
    | none =>
      have hnone : firings react allowed (limit + 1) run = [] := by
        rw [firings, hf]
        cases run.agenda.entries <;> rfl
      rw [hnone, drain_of_fire_eq_none _ hf]
      refine ⟨.refl h ok, ?_, fun _ => hf⟩
      intro f hf
      cases hf
    | some next =>
      obtain ⟨f, hfires, hallowed, hfirings⟩ := h.fire calm hf
      obtain ⟨hrest, hall, hends⟩ := ih next hfires.ok hfires.orderly
      have hdrain : Agenda.drain react allowed (limit + 1) run = Agenda.drain react allowed limit next := by
        rw [Agenda.drain, hf]
        simp [hfires.ok]
      rw [hfirings, hdrain]
      refine ⟨hfires.trans hrest, ?_, ?_⟩
      · intro g hg
        obtain rfl | hg := List.mem_cons.mp hg
        · exact hallowed
        · exact hall g hg
      · intro hlt
        rw [hfires.counted, List.length_singleton] at hends
        exact hends (by omega)

/-- Time that is moved forward leaves nothing behind that was due, if the budget is not used up. -/
private theorem advance (calm : Calm react) (budget ms : Nat) (world : σ) (h : Orderly agenda scheduled fired)
    (ends : (agenda.advance react budget ms world).calls < budget) :
    let fs := firings react (fun due => decide (due ≤ agenda.now + ms)) budget ⟨agenda, world, 0, none⟩
    let out := agenda.advance react budget ms world
    Fires react scheduled fired fs ⟨agenda, world, 0, none⟩ out ∧ out.agenda.now = agenda.now + ms ∧
      ∀ e ∈ out.agenda.entries, out.agenda.now < e.due := by
  generalize hdrained :
    Agenda.drain react (fun due => decide (due ≤ agenda.now + ms)) budget ⟨agenda, world, 0, none⟩ = drained
  have hdrain := h.drain calm (fun due => decide (due ≤ agenda.now + ms)) budget ⟨agenda, world, 0, none⟩ rfl
  dsimp only at hdrain
  rw [hdrained] at hdrain
  obtain ⟨hfires, hallowed, hends⟩ := hdrain
  rw [advance_eq hdrained hfires.ok] at ends ⊢
  rw [Nat.zero_add] at hends
  have hleft : ∀ e ∈ drained.agenda.entries, agenda.now + ms < e.due := by
    intro e he
    obtain hnil | ⟨first, rest, hentries, hdue⟩ := fire_eq_none (hends ends)
    · rw [hnil] at he
      cases he
    · have hwaiting := (List.pairwise_append.mp hfires.orderly.ordered).2.1
      have hfirst : agenda.now + ms < first.due := by simpa using hdue
      rw [hentries] at he hwaiting
      obtain rfl | he := List.mem_cons.mp he
      · exact hfirst
      · exact Int.lt_of_lt_of_le hfirst ((List.pairwise_cons.mp hwaiting).1 e he).due_le
  have hlater : agenda.now ≤ agenda.now + ms := Int.le_add_of_nonneg_right (Int.natCast_nonneg ms)
  refine ⟨⟨hfires.orderly.wait ?_ fun e he => Int.le_of_lt (hleft e he), ?_, ?_, ?_, hlater, ?_⟩, rfl, hleft⟩
  · intro f hf
    obtain hf | hf := List.mem_append.mp hf
    · exact Int.le_trans (h.past f hf) hlater
    · have hdue : f.clock ≤ agenda.now + ms := by simpa using hallowed f hf
      rwa [hfires.orderly.punctual f (List.mem_append_right _ hf)] at hdue
  · exact hfires.ok
  · exact hfires.counted
  · exact hfires.after
  · exact hfires.effects

end Orderly

end Agenda

/-- An agenda with all that has happened to it: every entry that was scheduled and every task that was run, oldest
first, the times that the clock has shown before, and how many calls all runs have answered together. -/
structure History (σ α : Type) where
  agenda : Agenda α
  world : σ
  scheduled : List (Entry α)
  fired : List (Firing α)
  past : List Int
  calls : Nat

namespace History
variable {α σ ε : Type}

def start (world : σ) : History σ α := ⟨.empty, world, [], [], [], 0⟩

def schedule (h : History σ α) (delay : Nat) (task : α) : History σ α :=
  { h with
    agenda := h.agenda.schedule delay task
    scheduled := h.scheduled ++ h.agenda.entriesOf [((delay : Int), task)] }

def record (h : History σ α) (run : Run σ α ε) (fired : List (Firing α)) : History σ α :=
  { agenda := run.agenda
    world := run.world
    scheduled := h.scheduled ++ fired.flatMap Firing.posted
    fired := h.fired ++ fired
    past := h.past ++ h.agenda.now :: fired.map Firing.clock
    calls := h.calls + run.calls }

def advance (react : σ → Int → α → Reaction σ α ε) (budget ms : Nat) (h : History σ α) : History σ α :=
  h.record (h.agenda.advance react budget ms h.world)
    (Agenda.firings react (fun due => decide (due ≤ h.agenda.now + ms)) budget ⟨h.agenda, h.world, 0, none⟩)

def runPending (react : σ → Int → α → Reaction σ α ε) (limit : Nat) (h : History σ α) : History σ α :=
  h.record (h.agenda.runPending react limit h.world)
    (Agenda.firings react (fun _ => true) limit ⟨h.agenda, h.world, 0, none⟩)

/-- The histories of an agenda. Time is moved forward with a budget that is not used up, so that the last thing
done is to find nothing due. -/
inductive Reached (react : σ → Int → α → Reaction σ α ε) (world : σ) : History σ α → Prop
  | start : Reached react world (start world)
  | schedule {h : History σ α} (delay : Nat) (task : α) : Reached react world h →
      Reached react world (h.schedule delay task)
  | advance {h : History σ α} (budget ms : Nat) : (h.agenda.advance react budget ms h.world).calls < budget →
      Reached react world h → Reached react world (h.advance react budget ms)
  | runPending {h : History σ α} (limit : Nat) : Reached react world h →
      Reached react world (h.runPending react limit)

/-- A history in which the agenda is orderly, the clock has never gone back, and the calls were counted. The world is
what the tasks made of it in the order in which they were run. -/
structure Sound (react : σ → Int → α → Reaction σ α ε) (world : σ) (h : History σ α) : Prop where
  orderly : h.agenda.Orderly h.scheduled h.fired
  forward : (h.past ++ [h.agenda.now]).Pairwise (· ≤ ·)
  counted : h.calls = h.fired.length
  effects : h.world = h.fired.foldl (fun world f => (react world f.clock f.entry.task).world) world

namespace Sound
variable {react : σ → Int → α → Reaction σ α ε} {world : σ} {h : History σ α}

private theorem start : Sound react world (start world) := by
  refine ⟨⟨rfl, .nil, .nil, ?_, ?_, ?_⟩, List.pairwise_singleton _ _, rfl, rfl⟩
  all_goals exact fun _ h => by cases h

private theorem schedule (sound : Sound react world h) (delay : Nat) (task : α) : Sound react world (h.schedule delay task) :=
  ⟨sound.orderly.schedule (Int.natCast_nonneg delay) task, sound.forward, sound.counted, sound.effects⟩

/-- A run goes on record with the time at its end, which may be later than the last task. -/
private theorem record (sound : Sound react world h) {run : Run σ α ε} {fired : List (Firing α)}
    (fires : Agenda.Fires react h.scheduled h.fired fired ⟨h.agenda, h.world, 0, none⟩ run) :
    Sound react world (h.record run fired) := by
  obtain ⟨orderly, -, calls, after, later, effects⟩ := fires
  have hclock (f : Firing α) (hf : f ∈ fired) : f.clock = f.entry.due :=
    orderly.punctual f (List.mem_append_right _ hf)
  have hclocks : (fired.map Firing.clock).Pairwise (· ≤ ·) := by
    have hordered := (List.pairwise_append.mp orderly.ordered).1
    rw [List.map_append] at hordered
    have hfired := List.pairwise_map.mp (List.pairwise_append.mp hordered).2.1
    refine List.pairwise_map.mpr (hfired.imp_of_mem ?_)
    intro f g hf hg hbefore
    rw [hclock f hf, hclock g hg]
    exact hbefore.due_le
  refine ⟨orderly, ?_, ?_, ?_⟩
  · -- the readings before the run, those during the run, and the one at its end
    have hreadings : (h.record run fired).past ++ [(h.record run fired).agenda.now] =
        (h.past ++ [h.agenda.now]) ++ (fired.map Firing.clock ++ [run.agenda.now]) := by
      simp [History.record]
    rw [hreadings]
    have hfired : (fired.map Firing.clock ++ [run.agenda.now]).Pairwise (· ≤ ·) := by
      refine List.pairwise_append.mpr ⟨hclocks, List.pairwise_singleton _ _, ?_⟩
      intro x hx y hy
      obtain ⟨f, hf, rfl⟩ := List.mem_map.mp hx
      rw [List.mem_singleton.mp hy, hclock f hf]
      exact orderly.past f (List.mem_append_right _ hf)
    refine List.pairwise_append.mpr ⟨sound.forward, hfired, ?_⟩
    intro x hx y hy
    have hbefore : x ≤ h.agenda.now := by
      obtain hx | hx := List.mem_append.mp hx
      · exact (List.pairwise_append.mp sound.forward).2.2 x hx _ List.mem_cons_self
      · exact Int.le_of_eq (List.mem_singleton.mp hx)
    obtain hy | hy := List.mem_append.mp hy
    · obtain ⟨f, hf, rfl⟩ := List.mem_map.mp hy
      exact Int.le_trans hbefore (after f hf)
    · rw [List.mem_singleton.mp hy]
      exact Int.le_trans hbefore later
  · rw [History.record, sound.counted, calls, Nat.zero_add, List.length_append]
  · rw [History.record, effects, sound.effects, List.foldl_append]

private theorem advance (sound : Sound react world h) (calm : Agenda.Calm react) {budget ms : Nat}
    (ends : (h.agenda.advance react budget ms h.world).calls < budget) :
    Sound react world (h.advance react budget ms) :=
  sound.record (sound.orderly.advance calm budget ms h.world ends).1

private theorem runPending (sound : Sound react world h) (calm : Agenda.Calm react) (limit : Nat) :
    Sound react world (h.runPending react limit) :=
  sound.record (sound.orderly.drain calm (fun _ => true) limit ⟨h.agenda, h.world, 0, none⟩ rfl).1

end Sound

private theorem Reached.sound {react : σ → Int → α → Reaction σ α ε} {world : σ} {h : History σ α}
    (calm : Agenda.Calm react) (reached : Reached react world h) : Sound react world h := by
  induction reached with
  | start => exact .start
  | schedule delay task _ ih => exact ih.schedule delay task
  | advance budget ms ends _ ih => exact ih.advance calm ends
  | runPending limit _ ih => exact ih.runPending calm limit

/-- In every history of an agenda whose tasks never break off and schedule nothing for a time that has passed: what
was scheduled has distinct tickets and was run once or still waits; tasks were run at their times and in the order of
times and tickets; the clock has never gone back, and nothing that waits is due before it; and the calls that were
answered are the tasks that were run. When time has been moved forward, exactly what is due by then has been run, and
a run of fewer calls than its limit leaves nothing waiting. -/
theorem tasks_run_in_order {react : σ → Int → α → Reaction σ α ε} {world : σ} {h : History σ α}
    (calm : Agenda.Calm react) (reached : Reached react world h) :
    h.scheduled.map Entry.ticket = List.range h.agenda.issued ∧
    (h.fired.map Firing.entry ++ h.agenda.entries).Perm h.scheduled ∧
    (h.fired.map fun f => f.entry.ticket).Nodup ∧
    (∀ f ∈ h.fired, f.clock = f.entry.due) ∧
    h.world = h.fired.foldl (fun world f => (react world f.clock f.entry.task).world) world ∧
    (h.fired.map Firing.entry).Pairwise Entry.Before ∧
    (h.past ++ [h.agenda.now]).Pairwise (· ≤ ·) ∧
    (∀ e ∈ h.agenda.entries, h.agenda.now ≤ e.due) ∧
    h.calls = h.fired.length ∧
    (∀ budget ms : Nat, (h.agenda.advance react budget ms h.world).calls < budget →
      let next := h.advance react budget ms
      next.agenda.now = h.agenda.now + ms ∧
        ∀ e ∈ next.scheduled, e ∈ next.fired.map Firing.entry ↔ e.due ≤ next.agenda.now) ∧
    ∀ limit : Nat, (h.agenda.runPending react limit h.world).calls < limit →
      (h.runPending react limit).agenda.entries = [] := by
  have sound := reached.sound calm
  have horderly := sound.orderly
  refine ⟨horderly.tickets, horderly.kept, ?_, horderly.punctual, sound.effects,
    (List.pairwise_append.mp horderly.ordered).1, sound.forward, horderly.ahead, sound.counted, ?_, ?_⟩
  · have hall : ((h.fired.map Firing.entry ++ h.agenda.entries).map Entry.ticket).Nodup := by
      rw [(horderly.kept.map Entry.ticket).nodup_iff, horderly.tickets]
      exact List.nodup_range
    rw [List.map_append, List.map_map] at hall
    exact (List.nodup_append.mp hall).1
  · intro budget ms ends next
    obtain ⟨hfires, hnow, hleft⟩ := horderly.advance calm budget ms h.world ends
    have hnext := hfires.orderly
    refine ⟨hnow, fun e he => ⟨?_, ?_⟩⟩
    · intro hfired
      obtain ⟨f, hf, rfl⟩ := List.mem_map.mp hfired
      exact hnext.past f hf
    · intro hdue
      obtain hfired | hwaits := List.mem_append.mp (hnext.kept.mem_iff.mpr he)
      · exact hfired
      · exact absurd hdue (Int.not_le.mpr (hleft e hwaits))
  · intro limit hcalls
    obtain ⟨-, -, hends⟩ := horderly.drain calm (fun _ => true) limit ⟨h.agenda, h.world, 0, none⟩ rfl
    rw [Nat.zero_add] at hends
    obtain hnil | ⟨e, rest, -, hallowed⟩ := Agenda.fire_eq_none (hends hcalls)
    · exact hnil
    · cases hallowed

/-- A task `n + 1` notes the time and puts a task `n` on the agenda twice, for the same time and for five
milliseconds later. -/
def branching (log : List (Int × Nat)) (now : Int) : Nat → Reaction (List (Int × Nat)) Nat Unit
  | 0 => ⟨log ++ [(now, 0)], [], none⟩
  | n + 1 => ⟨log ++ [(now, n + 1)], [(0, n), (5, n)], none⟩

theorem calm_branching : Agenda.Calm branching := by
  refine ⟨?_, ?_⟩
  · intro log now task
    cases task <;> rfl
  · intro log now task post hpost
    cases task with
    | zero => cases hpost
    | succ n =>
      simp only [branching, List.mem_cons, List.not_mem_nil, or_false] at hpost
      obtain rfl | rfl := hpost
      · exact Int.le_refl 0
      · exact Int.natCast_nonneg 5

/-- Fifteen milliseconds run the second task and five that come from it; then two of those due at 20 are run. -/
def branched : History (List (Int × Nat)) Nat :=
  (((((start []).schedule 20 1).schedule 10 2).schedule 20 0).advance branching 9 15).runPending branching 2

private theorem reached_branched : Reached branching [] branched := by
  refine .runPending 2 (.advance 9 15 (by decide) ?_)
  exact .schedule 20 0 (.schedule 10 2 (.schedule 20 1 .start))

theorem tasks_run_in_order_branched :
    branched.world = [(10, 2), (10, 1), (10, 0), (15, 1), (15, 0), (15, 0), (20, 1), (20, 0)] ∧
    Agenda.Calm branching ∧ Reached branching [] branched ∧
    branched.scheduled.map Entry.ticket = List.range branched.agenda.issued ∧
    (branched.fired.map Firing.entry ++ branched.agenda.entries).Perm branched.scheduled ∧
    (branched.fired.map fun f => f.entry.ticket).Nodup ∧
    (∀ f ∈ branched.fired, f.clock = f.entry.due) ∧
    branched.world = branched.fired.foldl (fun world f => (branching world f.clock f.entry.task).world) [] ∧
    (branched.fired.map Firing.entry).Pairwise Entry.Before ∧
    (branched.past ++ [branched.agenda.now]).Pairwise (· ≤ ·) ∧
    (∀ e ∈ branched.agenda.entries, branched.agenda.now ≤ e.due) ∧
    branched.calls = branched.fired.length ∧
    (∀ budget ms : Nat, (branched.agenda.advance branching budget ms branched.world).calls < budget →
      let next := branched.advance branching budget ms
      next.agenda.now = branched.agenda.now + ms ∧
        ∀ e ∈ next.scheduled, e ∈ next.fired.map Firing.entry ↔ e.due ≤ next.agenda.now) ∧
    ∀ limit : Nat, (branched.agenda.runPending branching limit branched.world).calls < limit →
      (branched.runPending branching limit).agenda.entries = [] :=
  ⟨by decide +kernel, calm_branching, reached_branched, tasks_run_in_order calm_branching reached_branched⟩

end History

end WireCut
