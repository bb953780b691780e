import WireCut.Proofs.Agenda.Drain

/-! An agenda among the entries of another one. The larger agenda holds the tasks of the smaller one at times that
differ by a shift, beside tasks that do nothing to what the smaller one acts on. Time that moves forward does the same
to both, however many of the other tasks are fired on the way. -/
namespace WireCut

namespace Agenda
variable {α σ ε : Type}

private theorem pending_scheduleAll (agenda : Agenda α) (posts : List (Int × α)) :
    (agenda.scheduleAll posts).pending = agenda.pending + posts.length := by
  induction posts generalizing agenda with
  | nil => rfl
  | cons post posts ih =>
    have hrest := ih (agenda.schedule post.1 post.2)
    rw [pending_schedule] at hrest
    rw [List.length_cons]
    exact hrest.trans (by omega)

/-- Tasks that pay for what they schedule with the size of the world. -/
def Pays (react : σ → Int → α → Reaction σ α ε) (size : σ → Nat) : Prop :=
  ∀ world now task, (react world now task).posts.length + size (react world now task).world ≤ size world

private theorem Pays.fire {react : σ → Int → α → Reaction σ α ε} {allowed : Int → Bool} {size : σ → Nat}
    (pays : Pays react size) {run next : Run σ α ε} (h : fire react allowed run = some next) :
    next.agenda.pending + size next.world < run.agenda.pending + size run.world := by
  obtain ⟨e, rest, he, -, hagenda, hworld, -⟩ := fire_eq_some h
  have hpaid := pays run.world e.due e.task
  have hpending : run.agenda.pending = rest.length + 1 := congrArg List.length he
  have htaken : (run.agenda.taken e.due rest).pending = rest.length := rfl
  rw [hagenda, pending_scheduleAll, hworld, hpending, htaken]
  omega

/-- A run that cannot pay for a task has none to fire. -/
private theorem Pays.fire_eq_none {react : σ → Int → α → Reaction σ α ε} (allowed : Int → Bool) {size : σ → Nat}
    (pays : Pays react size) {run : Run σ α ε} (h : run.agenda.pending + size run.world ≤ 0) :
    Agenda.fire react allowed run = none := by
  cases hrun : Agenda.fire react allowed run with
  | none => rfl
  | some next =>
    have := pays.fire hrun
    omega

/-- With a budget for every waiting task and every payment, a run ends because no task is allowed any more, and never
because the budget is used up. -/
theorem Pays.exhausts {react : σ → Int → α → Reaction σ α ε} {allowed : Int → Bool} {size : σ → Nat}
    (pays : Pays react size) (limit : Nat) (run : Run σ α ε) (hlimit : run.agenda.pending + size run.world ≤ limit)
    (ok : (drain react allowed limit run).failure = none) :
    Agenda.fire react allowed (drain react allowed limit run) = none := by
  induction limit generalizing run with
  | zero => exact pays.fire_eq_none allowed hlimit
  | succ limit ih =>
    cases hf : Agenda.fire react allowed run with
    | none =>
      rw [drain_of_fire_eq_none _ hf]
      exact hf
    | some next =>
      have hpaid := pays.fire hf
      simp only [drain, hf] at ok ⊢
      split at ok
      · rename_i hfailed
        rw [ok] at hfailed
        cases hfailed
      · rename_i hnone
        rw [if_neg hnone]
        exact ih next (by omega) ok

/-- A run makes no more calls than it can pay for, and no more than its limit. -/
theorem Pays.calls_le {react : σ → Int → α → Reaction σ α ε} {allowed : Int → Bool} {size : σ → Nat}
    (pays : Pays react size) (limit : Nat) (run : Run σ α ε) :
    (drain react allowed limit run).calls ≤ run.calls + min limit (run.agenda.pending + size run.world) := by
  induction limit generalizing run with
  | zero => exact Nat.le_add_right _ _
  | succ limit ih =>
    cases hf : Agenda.fire react allowed run with
    | none =>
      rw [drain_of_fire_eq_none _ hf]
      exact Nat.le_add_right _ _
    | some next =>
      have hpaid := pays.fire hf
      obtain ⟨-, -, -, -, -, -, -, hcalls⟩ := fire_eq_some hf
      have hone : next.calls ≤ run.calls + 1 := by
        rw [hcalls]
        split <;> omega
      have hrest := ih next
      simp only [drain, hf]
      split <;> omega

/-- A run that has come to its end is the same run with any larger limit. -/
theorem drain_of_le {react : σ → Int → α → Reaction σ α ε} {allowed : Int → Bool} {limit more : Nat}
    (run : Run σ α ε) (hle : limit ≤ more) (ends : fire react allowed (drain react allowed limit run) = none) :
    drain react allowed more run = drain react allowed limit run := by
  induction limit generalizing run more with
  | zero => exact drain_of_fire_eq_none more ends
  | succ limit ih =>
    obtain ⟨more, rfl⟩ : ∃ rest, more = rest + 1 := ⟨more - 1, by omega⟩
    cases hf : fire react allowed run with
    | none => rw [drain_of_fire_eq_none _ hf, drain_of_fire_eq_none _ hf]
    | some next =>
      simp only [drain, hf] at ends ⊢
      split
      · rfl
      · rename_i hok
        rw [if_neg hok] at ends
        exact ih next (Nat.le_of_succ_le_succ hle) ends

def Sorted (entries : List (Entry α)) : Prop :=
  entries.Pairwise fun x y => x.due ≤ y.due

theorem sorted_insert (e : Entry α) {xs : List (Entry α)} (h : Sorted xs) : Sorted (insert e xs) :=
  pairwise_insert h (fun _ _ hle => hle) (fun _ _ hlt => Int.le_of_lt hlt) fun _ _ hle => hle

theorem sorted_scheduleAll {agenda : Agenda α} (h : Sorted agenda.entries) (posts : List (Int × α)) :
    Sorted (agenda.scheduleAll posts).entries := by
  induction posts generalizing agenda with
  | nil => exact h
  | cons post posts ih => exact ih (sorted_insert _ h)

/-- The entries `ys` among the entries `xs`: those with a task that is kept, in the same order, at times that are
earlier by a shift. -/
inductive Among (kept : α → Option α) (shift : Int) : List (Entry α) → List (Entry α) → Prop where
  | nil : Among kept shift [] []
  | skip {x : Entry α} {xs ys : List (Entry α)} : kept x.task = none → Among kept shift xs ys →
      Among kept shift (x :: xs) ys
  | keep {x y : Entry α} {xs ys : List (Entry α)} : kept x.task = some y.task → x.due = y.due + shift →
      Among kept shift xs ys → Among kept shift (x :: xs) (y :: ys)

namespace Among
variable {kept : α → Option α} {shift : Int} {xs ys : List (Entry α)}

theorem of_none (h : ∀ x ∈ xs, kept x.task = none) : Among kept shift xs [] := by
  induction xs with
  | nil => exact .nil
  | cons x xs ih => exact .skip (h x List.mem_cons_self) (ih fun y hy => h y (List.mem_cons_of_mem x hy))

private theorem exists_mem (h : Among kept shift xs ys) {y : Entry α} (hy : y ∈ ys) : ∃ x ∈ xs, x.due = y.due + shift := by
  induction h with
  | nil => cases hy
  | skip _ _ ih =>
    obtain ⟨x, hx, hdue⟩ := ih hy
    exact ⟨x, List.mem_cons_of_mem _ hx, hdue⟩
  | keep _ hdue _ ih =>
    obtain rfl | hy := List.mem_cons.mp hy
    · exact ⟨_, List.mem_cons_self, hdue⟩
    · obtain ⟨x, hx, hdue⟩ := ih hy
      exact ⟨x, List.mem_cons_of_mem _ hx, hdue⟩

/-- An entry that is put before everything is put before everything that is kept. -/
private theorem insert_first (h : Among kept shift xs ys) {x y : Entry α} (hdue : x.due = y.due + shift)
    (first : ∀ z ∈ xs, x.due < z.due) : insert y ys = y :: ys := by
  cases ys with
  | nil => rfl
  | cons z ys =>
    obtain ⟨w, hw, hwdue⟩ := h.exists_mem (List.mem_cons_self (a := z))
    have := first w hw
    rw [insert, if_pos (by omega)]

private theorem insert (h : Among kept shift xs ys) (sorted : Sorted xs) {x y : Entry α}
    (hkept : kept x.task = some y.task) (hdue : x.due = y.due + shift) :
    Among kept shift (Agenda.insert x xs) (Agenda.insert y ys) := by
  induction h with
  | nil => exact .keep hkept hdue .nil
  | skip hskip hrest ih =>
    rename_i first rest others
    obtain ⟨hfirst, hsorted⟩ := List.pairwise_cons.mp sorted
    rw [Agenda.insert]
    split
    · rename_i hlt
      have hbefore : ∀ z ∈ rest, x.due < z.due := fun z hz => Int.lt_of_lt_of_le hlt (hfirst z hz)
      rw [hrest.insert_first hdue hbefore]
      exact .keep hkept hdue (.skip hskip hrest)
    · exact .skip hskip (ih hsorted)
  | keep hkeep hsame hrest ih =>
    rename_i first other rest others
    have hsorted := (List.pairwise_cons.mp sorted).2
    by_cases hlt : x.due < first.due
    · rw [Agenda.insert, Agenda.insert, if_pos hlt, if_pos (by omega)]
      exact .keep hkept hdue (.keep hkeep hsame hrest)
    · rw [Agenda.insert, Agenda.insert, if_neg hlt, if_neg (by omega)]
      exact .keep hkeep hsame (ih hsorted)

private theorem insert_skipped (h : Among kept shift xs ys) {x : Entry α} (hskip : kept x.task = none) :
    Among kept shift (Agenda.insert x xs) ys := by
  induction h with
  | nil => exact .skip hskip .nil
  | skip hfirst hrest ih =>
    rw [Agenda.insert]
    split
    · exact .skip hskip (.skip hfirst hrest)
    · exact .skip hfirst ih
  | keep hkeep hsame hrest ih =>
    rw [Agenda.insert]
    split
    · exact .skip hskip (.keep hkeep hsame hrest)
    · exact .keep hkeep hsame ih

private theorem scheduleAll_skipped {agenda : Agenda α} (h : Among kept shift agenda.entries ys) {posts : List (Int × α)}
    (hskip : ∀ post ∈ posts, kept post.2 = none) : Among kept shift (agenda.scheduleAll posts).entries ys := by
  induction posts generalizing agenda with
  | nil => exact h
  | cons post posts ih =>
    exact ih (h.insert_skipped (hskip post List.mem_cons_self)) fun other hother =>
      hskip other (List.mem_cons_of_mem post hother)

end Among

structure Hosts (kept : α → Option α) (shift : Int) (agenda other : Agenda α) : Prop where
  now_eq : agenda.now = other.now + shift
  sorted : Sorted agenda.entries
  among : Among kept shift agenda.entries other.entries

/-- Worlds in which kept tasks do the same, without breaking off, while what any other task does to the first of the
two worlds, and what it schedules there, is nothing to the second one. -/
structure Simulation (react : σ → Int → α → Reaction σ α ε) (kept : α → Option α) (W : σ → σ → Prop) : Prop where
  skip : ∀ {world other}, W world other → ∀ now task, kept task = none →
    W (react world now task).world other ∧ (react world now task).failure = none ∧
      ∀ post ∈ (react world now task).posts, kept post.2 = none
  keep : ∀ {world other}, W world other → ∀ now now' task task', kept task = some task' →
    W (react world now task).world (react other now' task').world ∧
      (react world now task).failure = none ∧ (react other now' task').failure = none ∧
      (react world now task).posts.map (fun post => (post.1, kept post.2)) =
        (react other now' task').posts.map fun post => (post.1, some post.2)

namespace Hosts
variable {kept : α → Option α} {shift : Int} {agenda other : Agenda α}

theorem schedule (h : Hosts kept shift agenda other) (delay : Int) {task task' : α} (hkept : kept task = some task') :
    Hosts kept shift (agenda.schedule delay task) (other.schedule delay task') := by
  refine ⟨h.now_eq, sorted_insert _ h.sorted, h.among.insert h.sorted hkept ?_⟩
  have := h.now_eq
  dsimp only
  omega

private theorem scheduleAll (h : Hosts kept shift agenda other) {posts posts' : List (Int × α)}
    (same : posts.map (fun post => (post.1, kept post.2)) = posts'.map fun post => (post.1, some post.2)) :
    Hosts kept shift (agenda.scheduleAll posts) (other.scheduleAll posts') := by
  induction posts generalizing agenda other posts' with
  | nil =>
    rw [List.map_nil, eq_comm, List.map_eq_nil_iff] at same
    rw [same]
    exact h
  | cons post posts ih =>
    cases posts' with
    | nil => cases same
    | cons post' posts' =>
      obtain ⟨delay, task⟩ := post
      obtain ⟨delay', task'⟩ := post'
      simp only [List.map_cons, List.cons.injEq, Prod.mk.injEq] at same
      obtain ⟨⟨rfl, hkept⟩, hrest⟩ := same
      exact ih (h.schedule delay hkept) hrest

theorem schedule_skipped (h : Hosts kept shift agenda other) (delay : Int) {task : α} (hskip : kept task = none) :
    Hosts kept shift (agenda.schedule delay task) other :=
  ⟨h.now_eq, sorted_insert _ h.sorted, h.among.insert_skipped hskip⟩

end Hosts

end Agenda

namespace Run
variable {α σ ε : Type}

/-- Two runs in progress, one beside the other. Their clocks are not compared, since the first one also shows the
times of the tasks that are not kept. -/
structure Beside (kept : α → Option α) (shift : Int) (W : σ → σ → Prop) (run other : Run σ α ε) : Prop where
  ok : run.failure = none
  ok' : other.failure = none
  sorted : Agenda.Sorted run.agenda.entries
  among : Agenda.Among kept shift run.agenda.entries other.agenda.entries
  worlds : W run.world other.world

namespace Beside
variable {kept : α → Option α} {shift : Int} {W : σ → σ → Prop} {run next other : Run σ α ε}
variable {react : σ → Int → α → Reaction σ α ε} {allowed allowed' : Int → Bool}

private theorem fire_eq_none (h : run.Beside kept shift W other) (shifted : ∀ due, allowed (due + shift) = allowed' due)
    (earlier : ∀ first later, first ≤ later → allowed later = true → allowed first = true)
    (hnone : Agenda.fire react allowed run = none) : Agenda.fire react allowed' other = none := by
  cases hother : Agenda.fire react allowed' other with
  | none => rfl
  | some next =>
    obtain ⟨y, ys, hys, hallowed, -⟩ := Agenda.fire_eq_some hother
    obtain ⟨x, hx, hdue⟩ := h.among.exists_mem (y := y) (by rw [hys]; exact List.mem_cons_self)
    rw [← shifted, ← hdue] at hallowed
    -- the first entry is not due later than the one that would be fired
    obtain hnil | ⟨first, rest, hentries, hlate⟩ := Agenda.fire_eq_none hnone
    · rw [hnil] at hx
      cases hx
    · have hsorted := h.sorted
      rw [hentries] at hx hsorted
      have hle : first.due ≤ x.due := by
        obtain rfl | hx := List.mem_cons.mp hx
        · exact Int.le_refl _
        · exact (List.pairwise_cons.mp hsorted).1 x hx
      rw [earlier first.due x.due hle hallowed] at hlate
      cases hlate

/-- A task that is fired is fired on the other side as well, or it is not kept. -/
private theorem fire_eq_some (h : run.Beside kept shift W other) (sim : Agenda.Simulation react kept W)
    (shifted : ∀ due, allowed (due + shift) = allowed' due) (hnext : Agenda.fire react allowed run = some next) :
    next.Beside kept shift W other ∨
      ∃ next', Agenda.fire react allowed' other = some next' ∧ next.Beside kept shift W next' := by
  obtain ⟨x, xs, hxs, hallowed, hagenda, hworld, hfailure, -⟩ := Agenda.fire_eq_some hnext
  have hsorted := h.sorted
  have hamong := h.among
  rw [hxs] at hsorted hamong
  have hrest := (List.pairwise_cons.mp hsorted).2
  generalize hys : other.agenda.entries = ys at hamong
  cases hamong with
  | skip hskip hamong =>
    have hleft : Agenda.Sorted (run.agenda.taken x.due xs).entries := hrest
    obtain ⟨hworlds, hok, hposts⟩ := sim.skip h.worlds x.due x.task hskip
    have htaken : Agenda.Among kept shift (run.agenda.taken x.due xs).entries ys := hamong
    refine .inl ⟨hfailure.trans hok, h.ok', ?_, ?_, ?_⟩
    · rw [hagenda]
      exact Agenda.sorted_scheduleAll hleft _
    · rw [hagenda, hys]
      exact htaken.scheduleAll_skipped hposts
    · rw [hworld]
      exact hworlds
  | keep hkept hdue hamong =>
    rename_i y ys
    obtain ⟨hworlds, hok, hok', hposts⟩ := sim.keep h.worlds x.due y.due x.task y.task hkept
    rw [hdue, shifted] at hallowed
    obtain ⟨next', hnext', hagenda', hworld', hfailure'⟩ := Agenda.fire_of_allowed react allowed' hys hallowed
    have htaken : Agenda.Hosts kept shift (run.agenda.taken x.due xs) (other.agenda.taken y.due ys) :=
      ⟨hdue, hrest, hamong⟩
    have hhosts := htaken.scheduleAll hposts
    rw [← hagenda, ← hagenda'] at hhosts
    refine .inr ⟨next', hnext', hfailure.trans hok, hfailure'.trans hok', hhosts.sorted, hhosts.among, ?_⟩
    rw [hworld, hworld']
    exact hworlds

/-- Two runs that may go on to their end are still beside each other there. -/
private theorem drain (h : run.Beside kept shift W other) (sim : Agenda.Simulation react kept W) {size : σ → Nat}
    (pays : Agenda.Pays react size) (shifted : ∀ due, allowed (due + shift) = allowed' due)
    (earlier : ∀ first later, first ≤ later → allowed later = true → allowed first = true) {limit limit' : Nat}
    (enough : run.agenda.pending + size run.world ≤ limit)
    (enough' : other.agenda.pending + size other.world ≤ limit') :
    (Agenda.drain react allowed limit run).Beside kept shift W (Agenda.drain react allowed' limit' other) := by
  induction limit generalizing run other limit' with
  | zero =>
    have hnone := pays.fire_eq_none allowed enough
    have hnone' := h.fire_eq_none shifted earlier hnone
    rw [Agenda.drain_of_fire_eq_none 0 hnone, Agenda.drain_of_fire_eq_none limit' hnone']
    exact h
  | succ limit ih =>
    cases hrun : Agenda.fire react allowed run with
    | none =>
      have hnone' := h.fire_eq_none shifted earlier hrun
      rw [Agenda.drain_of_fire_eq_none _ hrun, Agenda.drain_of_fire_eq_none limit' hnone']
      exact h
    | some next =>
      have hless := pays.fire hrun
      rw [Agenda.drain, hrun]
      obtain hskipped | ⟨next', hother, hbeside⟩ := h.fire_eq_some sim shifted hrun
      · simp only [hskipped.ok, Option.isSome_none, Bool.false_eq_true, if_false]
        exact ih hskipped (by omega) enough'
      · have hless' := pays.fire hother
        obtain ⟨rest, rfl⟩ : ∃ rest, limit' = rest + 1 := ⟨limit' - 1, by omega⟩
        rw [Agenda.drain, hother]
        simp only [hbeside.ok, hbeside.ok', Option.isSome_none, Bool.false_eq_true, if_false]
        exact ih hbeside (by omega) (by omega)

end Beside

end Run

namespace Agenda
variable {α σ ε : Type}

/-- Time that moves forward for an agenda and one that it hosts. -/
theorem Hosts.advance {kept : α → Option α} {shift : Int} {agenda other : Agenda α}
    {react : σ → Int → α → Reaction σ α ε} {W : σ → σ → Prop} (h : Hosts kept shift agenda other)
    (sim : Simulation react kept W) {size : σ → Nat} (pays : Pays react size) {world world' : σ}
    (same : W world world') (ms : Int) :
    let out := agenda.advance react (agenda.pending + size world) ms world
    let out' := other.advance react (other.pending + size world') ms world'
    Hosts kept shift out.agenda out'.agenda ∧ W out.world out'.world := by
  have hstart : Run.Beside kept shift W (ε := ε) ⟨agenda, world, 0, none⟩ ⟨other, world', 0, none⟩ :=
    ⟨rfl, rfl, h.sorted, h.among, same⟩
  have hshifted (due : Int) : decide (due + shift ≤ agenda.now + ms) = decide (due ≤ other.now + ms) := by
    rw [h.now_eq]
    exact decide_eq_decide.mpr (by omega)
  have hearlier (first later : Int) (hle : first ≤ later) (hlater : decide (later ≤ agenda.now + ms) = true) :
      decide (first ≤ agenda.now + ms) = true :=
    decide_eq_true (Int.le_trans hle (of_decide_eq_true hlater))
  have hdrain := hstart.drain sim pays hshifted hearlier (Nat.le_refl _) (Nat.le_refl _)
  rw [advance_eq rfl hdrain.ok, advance_eq rfl hdrain.ok']
  refine ⟨⟨?_, hdrain.sorted, hdrain.among⟩, hdrain.worlds⟩
  have := h.now_eq
  dsimp only
  omega

end Agenda

end WireCut
