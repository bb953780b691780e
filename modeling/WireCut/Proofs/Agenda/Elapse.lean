import WireCut.Proofs.Agenda.Among
import WireCut.Proofs.Agenda.History

/-! Time in parts. However a span of time is cut in two, the same tasks run in the same order at the same times, and
the agenda and the world are the same at its end. -/
namespace WireCut

structure Run.Alike {α σ ε : Type} (run other : Run σ α ε) : Prop where
  entries_eq : run.agenda.entries = other.agenda.entries
  issued_eq : run.agenda.issued = other.agenda.issued
  world_eq : run.world = other.world
  failure_eq : run.failure = other.failure

namespace Run.Alike
variable {α σ ε : Type} {run other : Run σ α ε}

private theorem symm (h : run.Alike other) : other.Alike run :=
  ⟨h.entries_eq.symm, h.issued_eq.symm, h.world_eq.symm, h.failure_eq.symm⟩

/-- Once the clock is set to one time, only the numbers of calls are left to differ. -/
private theorem settle (h : run.Alike other) {calls : Nat} (hcalls : run.calls = calls + other.calls) (now : Int) :
    { run with agenda := { run.agenda with now } } =
      { other with agenda := { other.agenda with now }, calls := calls + other.calls } := by
  obtain ⟨⟨clock, entries, issued⟩, world, count, failure⟩ := run
  obtain ⟨rfl, rfl, rfl, rfl⟩ := h
  rw [← hcalls]

end Run.Alike

namespace Agenda
variable {α σ ε : Type} {react : σ → Int → α → Reaction σ α ε} {allowed allowed' : Int → Bool}
variable {run next other out : Run σ α ε}

/-- A task that may be fired by a time may be fired by any later time, and does the same. -/
private theorem fire_of_weaker (weaker : ∀ due, allowed due = true → allowed' due = true)
    (h : fire react allowed run = some next) : fire react allowed' run = some next := by
  obtain ⟨e, rest, he, ha, -⟩ := fire_eq_some h
  rw [← h, fire, fire, he]
  simp only [ha, weaker e.due ha]

private theorem firings_of_fire_eq_none (limit : Nat) (h : fire react allowed run = none) :
    firings react allowed limit run = [] := by
  cases limit with
  | zero => rfl
  | succ limit =>
    rw [firings, h]
    cases run.agenda.entries <;> rfl

/-- A task that is fired goes on record before those that are fired after it. -/
private theorem firings_of_fire {e : Entry α} {rest : List (Entry α)} (he : run.agenda.entries = e :: rest)
    (h : fire react allowed run = some next) (ok : next.failure = none) (limit : Nat) :
    firings react allowed (limit + 1) run =
      ⟨e, next.agenda.now, (run.agenda.taken e.due rest).entriesOf (react run.world e.due e.task).posts⟩ ::
        firings react allowed limit next := by
  rw [firings, he, h]
  simp [ok]

private theorem drain_of_fire (h : fire react allowed run = some next) (ok : next.failure = none) (limit : Nat) :
    drain react allowed (limit + 1) run = drain react allowed limit next := by
  rw [drain, h]
  simp [ok]

/-- The clock is set to the time of the task that is fired, so what it showed before does not matter. -/
private theorem fire_alike (h : run.Alike other) (hnext : fire react allowed run = some next) :
    ∃ next', fire react allowed other = some next' ∧ next.Alike next' ∧ next.agenda = next'.agenda ∧
      next.calls + other.calls = next'.calls + run.calls := by
  obtain ⟨e, rest, he, ha, hagenda, hworld, hfailure, hcalls⟩ := fire_eq_some hnext
  obtain ⟨next', hnext'⟩ : ∃ next', fire react allowed other = some next' := by
    obtain ⟨next', hfire, -⟩ := fire_of_allowed react allowed (h.entries_eq ▸ he) ha
    exact ⟨next', hfire⟩
  obtain ⟨e', rest', he', -, hagenda', hworld', hfailure', hcalls'⟩ := fire_eq_some hnext'
  obtain ⟨rfl, rfl⟩ : e = e' ∧ rest = rest' := by
    rw [h.entries_eq, he'] at he
    cases he
    exact ⟨rfl, rfl⟩
  have htaken : run.agenda.taken e.due rest = other.agenda.taken e.due rest := by
    simp only [taken, h.issued_eq]
  rw [htaken, h.world_eq] at hagenda
  rw [h.world_eq] at hworld hfailure
  have hsame : next.agenda = next'.agenda := hagenda.trans hagenda'.symm
  have hfailures : next.failure = next'.failure := hfailure.trans hfailure'.symm
  refine ⟨next', hnext', ⟨?_, ?_, hworld.trans hworld'.symm, hfailures⟩, hsame, ?_⟩
  · rw [hsame]
  · rw [hsame]
  · rw [hcalls, hcalls', hfailures]
    split <;> omega

private theorem fire_eq_none_alike (h : run.Alike other) (hnone : fire react allowed run = none) :
    fire react allowed other = none := by
  cases hother : fire react allowed other with
  | none => rfl
  | some next =>
    obtain ⟨next', hfire, -⟩ := fire_alike h.symm hother
    rw [hnone] at hfire
    cases hfire

section
variable (completes : ∀ world now task, (react world now task).failure = none)
include completes

private theorem ok_of_fire (h : fire react allowed run = some next) : next.failure = none := by
  obtain ⟨e, rest, -, -, -, -, hfailure, -⟩ := fire_eq_some h
  exact hfailure.trans (completes _ _ _)

/-- Runs that differ in the clock and the number of calls fire the same tasks and end with that difference. -/
private theorem drain_alike (limit : Nat) (h : run.Alike other) :
    (drain react allowed limit run).Alike (drain react allowed limit other) ∧
      firings react allowed limit run = firings react allowed limit other ∧
      (drain react allowed limit run).calls + other.calls = (drain react allowed limit other).calls + run.calls := by
  induction limit generalizing run other with
  | zero => exact ⟨h, rfl, Nat.add_comm _ _⟩
  | succ limit ih =>
    cases hf : fire react allowed run with
    | none =>
      have hf' := fire_eq_none_alike h hf
      rw [drain_of_fire_eq_none _ hf, drain_of_fire_eq_none _ hf', firings_of_fire_eq_none _ hf,
        firings_of_fire_eq_none _ hf']
      exact ⟨h, rfl, Nat.add_comm _ _⟩
    | some next =>
      obtain ⟨next', hf', hnext, hagenda, hcalls⟩ := fire_alike h hf
      obtain ⟨e, rest, he, -⟩ := fire_eq_some hf
      obtain ⟨hdrain, hfirings, hcounted⟩ := ih hnext
      have ok := ok_of_fire completes hf
      have ok' := ok_of_fire completes hf'
      have htaken : run.agenda.taken e.due rest = other.agenda.taken e.due rest := by
        simp only [taken, h.issued_eq]
      rw [drain_of_fire hf ok, drain_of_fire hf' ok', firings_of_fire he hf ok,
        firings_of_fire (h.entries_eq ▸ he) hf' ok', hagenda, htaken, h.world_eq, hfirings]
      exact ⟨hdrain, rfl, by omega⟩

/-- A run up to a later time begins with the run up to an earlier one. -/
private theorem drain_parts (weaker : ∀ due, allowed due = true → allowed' due = true) (limit : Nat) (run : Run σ α ε)
    (ends : fire react allowed (drain react allowed limit run) = none) :
    ∃ used ≤ limit, ∀ more,
      drain react allowed' (used + more) run = drain react allowed' more (drain react allowed limit run) ∧
      firings react allowed' (used + more) run =
        firings react allowed limit run ++ firings react allowed' more (drain react allowed limit run) := by
  induction limit generalizing run with
  | zero => exact ⟨0, Nat.le_refl 0, fun more => by simp [drain, firings]⟩
  | succ limit ih =>
    cases hf : fire react allowed run with
    | none =>
      rw [drain_of_fire_eq_none _ hf, firings_of_fire_eq_none _ hf]
      exact ⟨0, Nat.zero_le _, fun more => by simp⟩
    | some next =>
      have ok := ok_of_fire completes hf
      obtain ⟨e, rest, he, -⟩ := fire_eq_some hf
      have hf' := fire_of_weaker weaker hf
      rw [drain_of_fire hf ok] at ends ⊢
      obtain ⟨used, hle, hparts⟩ := ih next ends
      refine ⟨used + 1, Nat.succ_le_succ hle, fun more => ?_⟩
      obtain ⟨hdrain, hfirings⟩ := hparts more
      rw [Nat.add_right_comm, drain_of_fire hf' ok, firings_of_fire he hf' ok, firings_of_fire he hf ok, hdrain,
        hfirings]
      exact ⟨rfl, rfl⟩

/-- A budget that is enough for a time is enough for an earlier one. -/
private theorem drain_ends_earlier (weaker : ∀ due, allowed due = true → allowed' due = true) (limit : Nat) (run : Run σ α ε)
    (ends : fire react allowed' (drain react allowed' limit run) = none) :
    fire react allowed (drain react allowed limit run) = none := by
  induction limit generalizing run with
  | zero =>
    cases hf : fire react allowed run with
    | none => exact hf
    | some next =>
      rw [drain, fire_of_weaker weaker hf] at ends
      cases ends
  | succ limit ih =>
    cases hf : fire react allowed run with
    | none =>
      rw [drain_of_fire_eq_none _ hf]
      exact hf
    | some next =>
      have ok := ok_of_fire completes hf
      rw [drain_of_fire (fire_of_weaker weaker hf) ok] at ends
      rw [drain_of_fire hf ok]
      exact ih next ends

end

def upTo (deadline due : Int) : Bool :=
  decide (due ≤ deadline)

private theorem upTo_mono {first later due : Int} (hle : first ≤ later) (h : upTo first due = true) : upTo later due = true :=
  decide_eq_true (Int.le_trans (of_decide_eq_true h) hle)

/-- Time that is moved forward by `ms` comes to its end: a budget for all that falls due fires the tasks `fs` and ends
with `out`. -/
def Elapses (react : σ → Int → α → Reaction σ α ε) (agenda : Agenda α) (world : σ) (ms : Nat) (fs : List (Firing α))
    (out : Run σ α ε) : Prop :=
  ∃ budget,
    fire react (upTo (agenda.now + ms)) (drain react (upTo (agenda.now + ms)) budget ⟨agenda, world, 0, none⟩) = none ∧
    fs = firings react (upTo (agenda.now + ms)) budget ⟨agenda, world, 0, none⟩ ∧
    out = agenda.advance react budget ms world

/-- What a run has fired at its end is what it fires with any larger limit. -/
private theorem firings_of_le {limit more : Nat} (run : Run σ α ε) (hle : limit ≤ more)
    (ends : fire react allowed (drain react allowed limit run) = none) :
    firings react allowed more run = firings react allowed limit run := by
  induction limit generalizing run more with
  | zero => exact firings_of_fire_eq_none more ends
  | succ limit ih =>
    obtain ⟨more, rfl⟩ : ∃ rest, more = rest + 1 := ⟨more - 1, by omega⟩
    cases hf : fire react allowed run with
    | none => rw [firings_of_fire_eq_none _ hf, firings_of_fire_eq_none _ hf]
    | some next =>
      obtain ⟨e, rest, he, -⟩ := fire_eq_some hf
      simp only [firings, drain, he, hf] at ends ⊢
      split
      · rfl
      · rename_i hok
        rw [if_neg hok] at ends
        rw [ih next (Nat.le_of_succ_le_succ hle) ends]

/-- The budget does not matter once it is enough. -/
theorem Elapses.unique {agenda : Agenda α} {world : σ} {ms : Nat} {fs fs' : List (Firing α)} {out out' : Run σ α ε}
    (h : Elapses react agenda world ms fs out) (h' : Elapses react agenda world ms fs' out') : fs = fs' ∧ out = out' := by
  obtain ⟨budget, ends, rfl, rfl⟩ := h
  obtain ⟨budget', ends', rfl, rfl⟩ := h'
  have hfirings : firings react (upTo (agenda.now + ms)) budget ⟨agenda, world, 0, none⟩ =
      firings react (upTo (agenda.now + ms)) budget' ⟨agenda, world, 0, none⟩ := by
    rw [← firings_of_le _ (Nat.le_max_left budget budget') ends, firings_of_le _ (Nat.le_max_right budget budget') ends']
  have hdrain : drain react (upTo (agenda.now + ms)) budget ⟨agenda, world, 0, none⟩ =
      drain react (upTo (agenda.now + ms)) budget' ⟨agenda, world, 0, none⟩ := by
    rw [← drain_of_le _ (Nat.le_max_left budget budget') ends, drain_of_le _ (Nat.le_max_right budget budget') ends']
  refine ⟨hfirings, ?_⟩
  change _ = drain react (fun due => decide (due ≤ agenda.now + ms)) budget' _ at hdrain
  rw [advance, advance, ← hdrain]
  rfl

section
variable (completes : ∀ world now task, (react world now task).failure = none)
include completes

private theorem drain_never_fails (limit : Nat) (agenda : Agenda α) (world : σ) :
    (drain react allowed limit ⟨agenda, world, 0, none⟩).failure = none :=
  drain_completes (P := fun _ _ => True) (fun _ _ _ _ _ _ => ⟨trivial, completes _ _ _⟩) limit _ trivial rfl

/-- A span of time that is moved at once begins with its first part, and goes on as its second part does from there. -/
private theorem advance_parts (budget a b : Nat) (agenda : Agenda α) (world : σ)
    (ends : fire react (upTo (agenda.now + a))
      (drain react (upTo (agenda.now + a)) budget ⟨agenda, world, 0, none⟩) = none) :
    let mid := agenda.advance react budget a world
    let whole := upTo (agenda.now + (a + b : Nat))
    let second := upTo (mid.agenda.now + b)
    ∃ used ≤ budget, ∀ more,
      (fire react whole (drain react whole (used + more) ⟨agenda, world, 0, none⟩) = none ↔
        fire react second (drain react second more ⟨mid.agenda, mid.world, 0, none⟩) = none) ∧
      firings react whole (used + more) ⟨agenda, world, 0, none⟩ =
        firings react (upTo (agenda.now + a)) budget ⟨agenda, world, 0, none⟩ ++
          firings react second more ⟨mid.agenda, mid.world, 0, none⟩ ∧
      agenda.advance react (used + more) (a + b : Nat) world =
        { mid.agenda.advance react more b mid.world with
          calls := mid.calls + (mid.agenda.advance react more b mid.world).calls } := by
  intro mid whole second
  have hmid : mid = _ := advance_eq rfl (drain_never_fails completes budget agenda world)
  have hnow : mid.agenda.now = agenda.now + a := by rw [hmid]
  have hdeadline : mid.agenda.now + b = agenda.now + (a + b : Nat) := by omega
  have hsecond : second = whole := by
    simp only [second, whole, hdeadline]
  have hlater (due : Int) : upTo (agenda.now + a) due = true → whole due = true := upTo_mono (by omega)
  obtain ⟨used, hle, hparts⟩ := drain_parts completes hlater budget _ ends
  refine ⟨used, hle, fun more => ?_⟩
  obtain ⟨hdrain, hfirings⟩ := hparts more
  have halike : Run.Alike (drain react (upTo (agenda.now + a)) budget ⟨agenda, world, 0, none⟩)
      ⟨mid.agenda, mid.world, 0, none⟩ := by
    rw [hmid]
    exact ⟨rfl, rfl, rfl, drain_never_fails completes _ _ _⟩
  have hboth : (drain react whole more _).Alike (drain react whole more _) ∧ _ := drain_alike completes more halike
  obtain ⟨hrest, hfired, hcalls⟩ := hboth
  rw [hsecond, hdrain, hfirings, hfired]
  refine ⟨⟨fire_eq_none_alike hrest, fire_eq_none_alike hrest.symm⟩, rfl, ?_⟩
  rw [advance_eq hdrain (hrest.failure_eq.trans (drain_never_fails completes _ _ _)),
    advance_eq (congrArg (drain react · more _) hsecond) (drain_never_fails completes _ _ _), hdeadline]
  have hcounted : mid.calls = (drain react (upTo (agenda.now + a)) budget ⟨agenda, world, 0, none⟩).calls := by
    rw [hmid]
    rfl
  refine hrest.settle ?_ _
  rw [hcounted, Nat.add_comm]
  exact hcalls

/-- A span of time may be cut in two anywhere. The tasks that its parts fire, one after the other, are those that it
fires at once, with the same clock and the same effects, and the calls of its parts add up. One side comes to its end
if and only if the other does. -/
theorem elapses_add (agenda : Agenda α) (world : σ) (a b : Nat) (fs : List (Firing α)) (out : Run σ α ε) :
    Elapses react agenda world (a + b) fs out ↔
      ∃ first mid second last, Elapses react agenda world a first mid ∧
        Elapses react mid.agenda mid.world b second last ∧
        fs = first ++ second ∧ out = { last with calls := mid.calls + last.calls } := by
  constructor
  · rintro ⟨budget, ends, rfl, rfl⟩
    have hearlier (due : Int) : upTo (agenda.now + a) due = true → upTo (agenda.now + (a + b : Nat)) due = true :=
      upTo_mono (by omega)
    have hfirst := drain_ends_earlier completes hearlier budget _ ends
    obtain ⟨used, hle, hparts⟩ := advance_parts completes budget a b agenda world hfirst
    obtain ⟨hends, hfirings, hadvance⟩ := hparts (budget - used)
    rw [Nat.add_sub_cancel' hle] at hends hfirings hadvance
    exact ⟨_, _, _, _, ⟨budget, hfirst, rfl, rfl⟩, ⟨budget - used, hends.mp ends, rfl, rfl⟩, hfirings, hadvance⟩
  · rintro ⟨first, mid, second, last, ⟨budget, hfirst, rfl, rfl⟩, ⟨more, hsecond, rfl, rfl⟩, rfl, rfl⟩
    obtain ⟨used, -, hparts⟩ := advance_parts completes budget a b agenda world hfirst
    obtain ⟨hends, hfirings, hadvance⟩ := hparts more
    exact ⟨used + more, hends.mpr hsecond, hfirings.symm, hadvance.symm⟩

end

/-- A span that is cut at a time at which a task falls due, schedules another one for that time, and a third one for
the end of the span. -/
theorem elapses_add_branching :
    let agenda := Agenda.empty.schedule 10 2
    let out := agenda.advance History.branching 9 15 []
    let fs := firings History.branching (upTo 15) 9 ⟨agenda, [], 0, none⟩
    out.world = [(10, 2), (10, 1), (10, 0), (15, 1), (15, 0), (15, 0)] ∧
      (∀ world now task, (History.branching world now task).failure = none) ∧
      Elapses History.branching agenda [] (10 + 5) fs out ∧
      ∃ first mid second last, Elapses History.branching agenda [] 10 first mid ∧
        Elapses History.branching mid.agenda mid.world 5 second last ∧
        fs = first ++ second ∧ out = { last with calls := mid.calls + last.calls } := by
  intro agenda out fs
  have whole : Elapses History.branching agenda [] (10 + 5) fs out := ⟨9, rfl, rfl, rfl⟩
  exact ⟨by decide, History.calm_branching.completes, whole,
    (elapses_add History.calm_branching.completes agenda [] 10 5 fs out).mp whole⟩

end Agenda
end WireCut
