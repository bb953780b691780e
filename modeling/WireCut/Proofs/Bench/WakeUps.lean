import WireCut.Proofs.Bench.Event
import WireCut.Proofs.Playback.Interval
import WireCut.Settings.Basic

/-! Wake-ups in the agenda. Whatever happens at a bench, a running session has exactly one wake-up that it
still waits for, every other session has none, and a wake-up that is no longer waited for stays so. -/
namespace WireCut

/-- Every preset has one command per second as its least speed. -/
theorem Settings.minimumSpeed_ofPreset (preset : Preset) (followed : Bool) :
    ((Settings.ofPreset preset).setup followed).minimumSpeed = .whole 1 := by
  cases preset <;> rfl

namespace Playback

/-- Only the beginning of a run makes a playback run, and only the end of one bumps the generation of a running
playback. -/
private theorem act_quiet (p : Playback) (s : Surface) (a : Act) (still : a = .run → p.run.2 = false) :
    p.generation ≤ (p.act s a).playback.generation ∧
      ((p.act s a).playback.mode = .running →
        p.mode = .running ∧ (p.act s a).playback.generation = p.generation) := by
  cases a with
  | step =>
    rw [act]
    obtain ⟨c, -, -, heq⟩ | ⟨-, heq⟩ := p.step_cases s
    · rw [heq, executeCommand_eq]
      simp only [settle_eq, executed_mode]
      split
      · simp [finish]
      · by_cases hm : p.mode = .running <;> simp [hm]
    · rw [heq]
      simp [finish]
  | run =>
    rw [act]
    obtain ⟨hm, heq⟩ | ⟨-, -, heq⟩ | ⟨-, -, heq⟩ := p.run_cases
    · rw [heq]
      exact ⟨Nat.le_refl _, fun _ => ⟨hm, rfl⟩⟩
    · rw [heq]
      simp [finish]
    · have hstill := still rfl
      rw [heq] at hstill
      cases hstill
  | pause =>
    by_cases hm : p.mode = .running <;> simp [act, pause, abandon, hm]
  | reset => simp [act, reset]
  | setSpeed speed =>
    rw [act, setSpeed_eq]
    exact ⟨Nat.le_refl _, fun hm => ⟨hm, rfl⟩⟩

/-- The generation never falls, and a playback that begins to run takes a new one. -/
theorem act_generation (p : Playback) (s : Surface) (a : Act) :
    p.generation ≤ (p.act s a).playback.generation ∧
      ((p.act s a).playback.mode = .running → p.mode = .running ∨
        p.generation < (p.act s a).playback.generation) := by
  by_cases h : a = .run → p.run.2 = false
  · have hquiet := p.act_quiet s a h
    exact ⟨hquiet.1, fun hm => .inl (hquiet.2 hm).1⟩
  · obtain ⟨rfl, hwaits⟩ := Classical.not_imp.mp h
    obtain ⟨-, heq⟩ | ⟨-, -, heq⟩ | ⟨-, -, heq⟩ := p.run_cases
    · simp [heq] at hwaits
    · simp [heq] at hwaits
    · simp [act, heq]

/-- A wake-up that is not awaited is not awaited after any act either, unless it is of a generation to come. -/
private theorem act_not_awaits (p : Playback) (s : Surface) (a : Act) {generation : Nat}
    (hle : generation ≤ p.generation) (h : p.awaits generation = false) :
    (p.act s a).playback.awaits generation = false := by
  obtain ⟨hmono, hrun⟩ := p.act_generation s a
  by_cases hm : (p.act s a).playback.mode = .running
  · obtain hold | hnew := hrun hm
    · have hne : generation ≠ p.generation := by simpa [awaits, hold] using h
      have : generation ≠ (p.act s a).playback.generation := by omega
      simp [awaits, this]
    · have : generation ≠ (p.act s a).playback.generation := by omega
      simp [awaits, this]
  · simp [awaits, hm]

end Playback

def Playback.waiting (p : Playback) (index : Nat) (entries : List (Entry WakeUp)) : Nat :=
  entries.countP fun e => e.task.session = index && p.awaits e.task.generation

namespace Playback

theorem waiting_insert (p : Playback) (index : Nat) (e : Entry WakeUp) (entries : List (Entry WakeUp)) :
    p.waiting index (Agenda.insert e entries) =
      p.waiting index entries + if e.task.session = index && p.awaits e.task.generation then 1 else 0 :=
  Agenda.countP_insert _ e entries

private theorem waiting_eq_zero {p : Playback} {index : Nat} {entries : List (Entry WakeUp)}
    (h : ∀ e ∈ entries, e.task.session = index → p.awaits e.task.generation = false) :
    p.waiting index entries = 0 := by
  rw [waiting, List.countP_eq_zero]
  intro e he hcount
  simp only [Bool.and_eq_true, decide_eq_true_eq] at hcount
  rw [h e he hcount.1] at hcount
  exact absurd hcount.2 nofun

/-- An act that begins no run keeps the wake-ups that are awaited, or awaits none any more. -/
theorem waiting_quiet (p : Playback) (s : Surface) (a : Act) (still : a = .run → p.run.2 = false) (index : Nat)
    (entries : List (Entry WakeUp)) :
    (p.act s a).playback.waiting index entries =
      if (p.act s a).playback.mode = .running then p.waiting index entries else 0 := by
  obtain ⟨-, hquiet⟩ := p.act_quiet s a still
  by_cases hm : (p.act s a).playback.mode = .running
  · obtain ⟨hold, hsame⟩ := hquiet hm
    rw [if_pos hm]
    simp only [waiting, awaits, hm, hold, hsame]
  · rw [if_neg hm]
    exact waiting_eq_zero fun e _ _ => by simp [awaits, hm]

end Playback

namespace Desk

def awaits (desk : Desk) (wakeUp : WakeUp) : Bool :=
  desk.sessions[wakeUp.session]?.any fun session => session.playback.awaits wakeUp.generation

theorem replace_eq (desk : Desk) (old : Option Nat) (text : String) (speed : Option Quantity) (scale : Float) :
    desk.replace old text speed scale =
      (desk.stop old).opened (Session.create desk.setup text speed scale desk.surface) := by
  cases old <;> rfl

theorem stop_cases (desk : Desk) (old : Option Nat) :
    desk.stop old = desk ∨ ∃ index session, desk.sessions[index]? = some session ∧
      desk.stop old = desk.perform index session .pause := by
  cases old with
  | none => exact .inl rfl
  | some index =>
    cases hs : desk.sessions[index]? with
    | none => exact .inl (by rw [stop, update_of_none _ hs])
    | some session => exact .inr ⟨index, session, hs, by rw [stop, update_eq_settle _ hs]; rfl⟩

/-- A wake-up of one of the generations of a session up to now that the session does not await. -/
def Dead (desk : Desk) (w : WakeUp) : Prop :=
  ∃ session, desk.sessions[w.session]? = some session ∧ w.generation ≤ session.playback.generation ∧
    session.playback.awaits w.generation = false

namespace Dead
variable {desk : Desk} {w : WakeUp}

private theorem awaits_eq (h : desk.Dead w) : desk.awaits w = false := by
  obtain ⟨session, found, -, ha⟩ := h
  rw [awaits, found]
  exact ha

private theorem perform (h : desk.Dead w) {index : Nat} {session : Session} (found : desk.sessions[index]? = some session)
    (a : Playback.Act) : (desk.perform index session a).Dead w := by
  obtain ⟨own, hown, hle, ha⟩ := h
  by_cases hi : index = w.session
  · rw [hi, hown] at found
    cases found
    refine ⟨_, by rw [← hi, getElem?_perform (hi ▸ hown), if_pos rfl], ?_, ?_⟩
    · exact Nat.le_trans hle (session.playback.act_generation desk.surface a).1
    · exact session.playback.act_not_awaits desk.surface a hle ha
  · exact ⟨own, by rw [getElem?_perform found, if_neg hi, hown], hle, ha⟩

private theorem replace (h : desk.Dead w) (old : Option Nat) (text : String) (speed : Option Quantity) (scale : Float) :
    (desk.replace old text speed scale).Dead w := by
  have hstopped : (desk.stop old).Dead w := by
    obtain heq | ⟨index, session, hs, heq⟩ := desk.stop_cases old
    · rw [heq]
      exact h
    · rw [heq]
      exact h.perform hs .pause
  obtain ⟨session, found, hle, ha⟩ := hstopped
  refine ⟨session, ?_, hle, ha⟩
  rw [replace_eq, opened, List.getElem?_append_left (List.getElem?_eq_some_iff.mp found).1, found]

end Dead

private theorem getElem?_opened {desk : Desk} {opening : Opened} {i : Nat} {session : Session}
    (found : (desk.opened opening).sessions[i]? = some session) :
    desk.sessions[i]? = some session ∨ i = desk.sessions.length ∧ session = opening.session := by
  rw [Desk.opened, List.getElem?_append] at found
  split at found
  · exact .inl found
  · rename_i hi
    have : i = desk.sessions.length := by
      have := (List.getElem?_eq_some_iff.mp found).1
      simp at this
      omega
    subst this
    simp at found
    exact .inr ⟨rfl, found.symm⟩

def Ruled (desk : Desk) : Prop :=
  ∀ (i : Nat) session, desk.sessions[i]? = some session →
    session.playback.setup = desk.setup ∧ session.playback.Paced

namespace Ruled
variable {desk : Desk} {index : Nat} {session : Session}

theorem perform (h : desk.Ruled) (found : desk.sessions[index]? = some session) (a : Playback.Act) :
    (desk.perform index session a).Ruled := by
  intro i other hother
  rw [getElem?_perform found] at hother
  split at hother
  · cases hother
    obtain ⟨hsetup, hpaced⟩ := h index session found
    exact ⟨(session.playback.act_setup desk.surface a).trans hsetup, hpaced.act desk.surface a⟩
  · exact h i other hother

theorem replace (h : desk.Ruled) (old : Option Nat) (text : String) (speed : Option Quantity) (scale : Float) :
    (desk.replace old text speed scale).Ruled := by
  have hstopped : (desk.stop old).Ruled ∧ (desk.stop old).setup = desk.setup := by
    obtain heq | ⟨index, session, hs, heq⟩ := desk.stop_cases old
    · rw [heq]
      exact ⟨h, rfl⟩
    · rw [heq]
      exact ⟨h.perform hs .pause, rfl⟩
  intro i session found
  rw [replace_eq] at found ⊢
  obtain hold | ⟨-, rfl⟩ := getElem?_opened found
  · exact hstopped.1 i session hold
  · rw [Session.create_eq]
    exact ⟨hstopped.2.symm, speed, rfl⟩

end Ruled

/-- A desk beside a list of waiting wake-ups. Every wake-up is one of a session's generations up to now, and the number
of those that a session awaits is related to one if it runs, and to zero otherwise. -/
structure Counted (rel : Nat → Nat → Prop) (desk : Desk) (entries : List (Entry WakeUp)) : Prop where
  known : ∀ e ∈ entries, ∃ session, desk.sessions[e.task.session]? = some session ∧
    e.task.generation ≤ session.playback.generation
  count : ∀ (i : Nat) session, desk.sessions[i]? = some session →
    rel (session.playback.waiting i entries) (if session.playback.mode = .running then 1 else 0)

namespace Counted
variable {rel : Nat → Nat → Prop} {desk : Desk} {entries : List (Entry WakeUp)} {index : Nat} {session : Session}

private theorem known_perform (h : desk.Counted rel entries) (found : desk.sessions[index]? = some session) (a : Playback.Act)
    (e : Entry WakeUp) (he : e ∈ entries) :
    ∃ other, (desk.perform index session a).sessions[e.task.session]? = some other ∧
      e.task.generation ≤ other.playback.generation := by
  obtain ⟨other, hother, hle⟩ := h.known e he
  rw [getElem?_perform found]
  by_cases hi : index = e.task.session
  · rw [if_pos hi]
    rw [← hi, found] at hother
    cases hother
    exact ⟨_, rfl, Nat.le_trans hle (session.playback.act_generation desk.surface a).1⟩
  · rw [if_neg hi]
    exact ⟨other, hother, hle⟩

/-- An act that begins no run needs no new wake-up. -/
theorem perform_quiet (h : desk.Counted rel entries) (refl : ∀ n, rel n n)
    (found : desk.sessions[index]? = some session) (a : Playback.Act) (still : a = .run → session.playback.run.2 = false) :
    (desk.perform index session a).Counted rel entries := by
  refine ⟨h.known_perform found a, ?_⟩
  intro i other hother
  rw [getElem?_perform found] at hother
  split at hother
  · rename_i hi
    cases hother
    subst hi
    rw [Playback.waiting_quiet _ _ _ still]
    split
    · rename_i hm
      have hcount := h.count index session found
      rwa [if_pos ((session.playback.act_quiet desk.surface a still).2 hm).1] at hcount
    · exact refl 0
  · exact h.count i other hother

/-- The beginning of a run needs the wake-up that is scheduled for it: the older ones are of older generations. -/
theorem perform_begin (h : desk.Counted rel entries) (refl : ∀ n, rel n n)
    (found : desk.sessions[index]? = some session) (begins : session.playback.run.2 = true) (due : Int) (ticket : Nat) :
    (desk.perform index session .run).Counted rel
      (Agenda.insert ⟨due, ticket, index, session.playback.run.1.generation⟩ entries) := by
  obtain ⟨-, heq⟩ | ⟨-, -, heq⟩ | ⟨-, -, heq⟩ := session.playback.run_cases
  · simp [heq] at begins
  · simp [heq] at begins
  refine ⟨?_, ?_⟩
  · intro e he
    obtain rfl | he := Agenda.mem_insert.mp he
    · exact ⟨_, by rw [getElem?_perform found, if_pos rfl], Nat.le_refl _⟩
    · exact h.known_perform found .run e he
  · intro i other hother
    rw [getElem?_perform found] at hother
    rw [Playback.waiting_insert]
    split at hother
    · rename_i hi
      cases hother
      subst hi
      have hold : (session.playback.act desk.surface .run).playback.waiting index entries = 0 := by
        refine Playback.waiting_eq_zero fun e he hi => ?_
        obtain ⟨other, hother, hle⟩ := h.known e he
        rw [hi, found] at hother
        cases hother
        have : e.task.generation ≠ session.playback.generation + 1 := by omega
        simp [Playback.act, heq, Playback.awaits, this]
      rw [hold]
      simp [Playback.act, heq, Playback.awaits, refl]
    · rename_i hi
      simpa [hi] using h.count i other hother

/-- A session that is opened at the end of the list does not run yet. -/
private theorem opened (h : desk.Counted rel entries) (refl : ∀ n, rel n n) (opening : Opened)
    (hm : opening.session.playback.mode ≠ .running) : (desk.opened opening).Counted rel entries := by
  refine ⟨?_, ?_⟩
  · intro e he
    obtain ⟨session, found, hle⟩ := h.known e he
    refine ⟨session, ?_, hle⟩
    rw [Desk.opened, List.getElem?_append_left (List.getElem?_eq_some_iff.mp found).1, found]
  · intro i session found
    obtain found | ⟨rfl, rfl⟩ := getElem?_opened found
    · exact h.count i session found
    · rw [if_neg hm, Playback.waiting_eq_zero]
      · exact refl 0
      · intro e he hi
        obtain ⟨session, found, -⟩ := h.known e he
        have := (List.getElem?_eq_some_iff.mp found).1
        omega

theorem replace (h : desk.Counted rel entries) (refl : ∀ n, rel n n) (old : Option Nat) (text : String)
    (speed : Option Quantity) (scale : Float) : (desk.replace old text speed scale).Counted rel entries := by
  have hstopped : (desk.stop old).Counted rel entries := by
    obtain heq | ⟨index, session, hs, heq⟩ := desk.stop_cases old
    · rw [heq]
      exact h
    · rw [heq]
      exact h.perform_quiet refl hs .pause nofun
  rw [replace_eq]
  refine hstopped.opened refl _ ?_
  rw [Session.create_eq]
  exact nofun

theorem of_perm {others : List (Entry WakeUp)} (h : desk.Counted rel entries)
    (hperm : (others.map Entry.task).Perm (entries.map Entry.task)) : desk.Counted rel others := by
  refine ⟨?_, ?_⟩
  · intro e he
    obtain ⟨other, hother, htask⟩ := List.mem_map.mp (hperm.mem_iff.mp (List.mem_map_of_mem he))
    rw [← htask]
    exact h.known other hother
  · intro i session found
    have hcount := hperm.countP_eq fun task => task.session = i && session.playback.awaits task.generation
    rw [List.countP_map, List.countP_map] at hcount
    have hsame : session.playback.waiting i others = session.playback.waiting i entries := hcount
    rw [hsame]
    exact h.count i session found

private theorem drop {x : Entry WakeUp} (h : desk.Counted rel (x :: entries)) (dead : desk.awaits x.task = false) :
    desk.Counted rel entries := by
  refine ⟨fun e he => h.known e (List.mem_cons_of_mem x he), ?_⟩
  intro i session found
  have hcount := h.count i session found
  rw [Playback.waiting, List.countP_cons] at hcount
  by_cases hi : x.task.session = i
  · subst hi
    rw [awaits, found, Option.any_some] at dead
    simpa [dead, Playback.waiting] using hcount
  · simpa [hi, Playback.waiting] using hcount

private theorem dead (h : desk.Counted rel entries) {e : Entry WakeUp} (he : e ∈ entries) (ha : desk.awaits e.task = false) :
    desk.Dead e.task := by
  obtain ⟨session, found, hle⟩ := h.known e he
  rw [awaits, found] at ha
  exact ⟨session, found, hle, ha⟩

end Counted

/-- A desk whose sessions have intervals, beside a list of waiting wake-ups. Every wake-up is one of a session's
generations up to now, and a session has exactly one that it awaits if it runs, and none otherwise. -/
structure Wired (desk : Desk) (entries : List (Entry WakeUp)) : Prop where
  minimum : desk.setup.minimumSpeed = .whole 1
  paced : ∀ (i : Nat) session, desk.sessions[i]? = some session →
    session.playback.setup = desk.setup ∧ session.playback.Paced
  known : ∀ e ∈ entries, ∃ session, desk.sessions[e.task.session]? = some session ∧
    e.task.generation ≤ session.playback.generation
  single : ∀ (i : Nat) session, desk.sessions[i]? = some session →
    session.playback.waiting i entries = if session.playback.mode = .running then 1 else 0

namespace Wired
variable {desk : Desk} {entries : List (Entry WakeUp)} {index : Nat} {session : Session}

private theorem counted (h : desk.Wired entries) : desk.Counted Eq entries :=
  ⟨h.known, h.single⟩

private theorem of_counted (hmin : desk.setup.minimumSpeed = .whole 1) (ruled : desk.Ruled) (h : desk.Counted Eq entries) :
    desk.Wired entries :=
  ⟨hmin, ruled, h.known, h.count⟩

theorem interval_ok (h : desk.Wired entries) {i : Nat} (found : desk.sessions[i]? = some session) :
    ∃ ms, session.playback.interval = .ok ms := by
  obtain ⟨hsetup, hpaced⟩ := h.paced i session found
  exact hpaced.interval_ok (by rw [hsetup, h.minimum])

/-- Where one wake-up of a session is awaited, no other one is. -/
theorem alone {x : Entry WakeUp} {rest : List (Entry WakeUp)} (h : desk.Wired (x :: rest))
    (found : desk.sessions[x.task.session]? = some session)
    (awaits : session.playback.awaits x.task.generation = true) (e : Entry WakeUp) (he : e ∈ rest)
    (same : e.task.session = x.task.session) : session.playback.awaits e.task.generation = false := by
  have hsingle := h.single x.task.session session found
  rw [if_pos (Playback.awaits_iff.mp awaits).2, Playback.waiting, List.countP_cons, awaits] at hsingle
  simp only [decide_true, Bool.and_self, if_true, Nat.add_eq_right, List.countP_eq_zero] at hsingle
  have hnone := hsingle e he
  simpa [same] using hnone

/-- An act that begins no run needs no new wake-up. -/
private theorem perform_quiet (h : desk.Wired entries) (found : desk.sessions[index]? = some session) (a : Playback.Act)
    (still : a = .run → session.playback.run.2 = false) : (desk.perform index session a).Wired entries :=
  of_counted h.minimum (Ruled.perform h.paced found a) (h.counted.perform_quiet (fun _ => rfl) found a still)

/-- The beginning of a run needs the wake-up that is scheduled for it. -/
private theorem perform_begin (h : desk.Wired entries) (found : desk.sessions[index]? = some session)
    (begins : session.playback.run.2 = true) (due : Int) (ticket : Nat) :
    (desk.perform index session .run).Wired
      (Agenda.insert ⟨due, ticket, index, session.playback.run.1.generation⟩ entries) :=
  of_counted h.minimum (Ruled.perform h.paced found .run) (h.counted.perform_begin (fun _ => rfl) found begins due ticket)

theorem replace (h : desk.Wired entries) (old : Option Nat) (text : String) (speed : Option Quantity)
    (scale : Float) : (desk.replace old text speed scale).Wired entries := by
  refine of_counted ?_ (Ruled.replace h.paced old text speed scale)
    (h.counted.replace (fun _ => rfl) old text speed scale)
  cases old <;> exact h.minimum

private theorem of_perm {others : List (Entry WakeUp)} (h : desk.Wired entries)
    (hperm : (others.map Entry.task).Perm (entries.map Entry.task)) : desk.Wired others :=
  of_counted h.minimum h.paced (h.counted.of_perm hperm)

private theorem drop {x : Entry WakeUp} (h : desk.Wired (x :: entries)) (dead : desk.awaits x.task = false) :
    desk.Wired entries :=
  of_counted h.minimum h.paced (h.counted.drop dead)

private theorem dead (h : desk.Wired entries) {e : Entry WakeUp} (he : e ∈ entries) (ha : desk.awaits e.task = false) :
    desk.Dead e.task :=
  h.counted.dead he ha

/-- Firing the first wake-up never breaks off. If its session awaits it, the session steps, and the wake-up is
scheduled again for as long as the session runs. -/
theorem react {x : Entry WakeUp} {rest : List (Entry WakeUp)} (h : desk.Wired (x :: rest)) (agenda : Agenda WakeUp)
    (hrest : agenda.entries = rest) :
    (desk.react x.due x.task).world.Wired (agenda.scheduleAll (desk.react x.due x.task).posts).entries ∧
      (desk.react x.due x.task).failure = none := by
  obtain ⟨session, found, -⟩ := h.known x List.mem_cons_self
  cases ha : session.playback.awaits x.task.generation with
  | false =>
    rw [react_of_not_awaits x.due fun other hother => by rw [found] at hother; cases hother; exact ha]
    rw [Agenda.scheduleAll_nil, hrest]
    exact ⟨h.drop (by rw [awaits, found]; exact ha), rfl⟩
  | true =>
    obtain ⟨hworld, hposts⟩ := react_of_awaits x.due found ha
    obtain ⟨hstopped, hrunning⟩ := hposts _ rfl
    have hnext : (desk.perform x.task.session session .step).Wired (x :: rest) := h.perform_quiet found .step nofun
    have hfound : (desk.perform x.task.session session .step).sessions[x.task.session]? =
        some { session with playback := (session.playback.act desk.surface .step).playback } := by
      rw [getElem?_perform found, if_pos rfl]
    by_cases hm : (session.playback.act desk.surface .step).playback.mode = .running
    · obtain ⟨delay, hdelay⟩ := hnext.interval_ok hfound
      obtain ⟨hpost, hfailure⟩ := hrunning hm delay hdelay
      rw [hworld, hpost, Agenda.scheduleAll_singleton, Agenda.entries_schedule, hrest]
      exact ⟨hnext.of_perm ((Agenda.perm_insert _ rest).map Entry.task), hfailure⟩
    · obtain ⟨hpost, hfailure⟩ := hstopped hm
      rw [hworld, hpost, Agenda.scheduleAll_nil, hrest]
      refine ⟨hnext.drop ?_, hfailure⟩
      rw [awaits, hfound]
      simp [Playback.awaits, hm]

end Wired

end Desk

namespace Bench

theorem wired_perform {b : Bench} (h : b.desk.Wired b.agenda.entries) (e : Event) :
    (b.perform e).1.desk.Wired (b.perform e).1.agenda.entries := by
  let wired (agenda : Agenda WakeUp) (desk : Desk) : Prop := desk.Wired agenda.entries
  have fire (agenda : Agenda WakeUp) (desk : Desk) (x : Entry WakeUp) (rest : List (Entry WakeUp))
      (he : agenda.entries = x :: rest) (hd : desk.Wired agenda.entries) :
      (desk.react x.due x.task).world.Wired
        ((agenda.taken x.due rest).scheduleAll (desk.react x.due x.task).posts).entries := by
    rw [he] at hd
    exact (hd.react (agenda.taken x.due rest) rfl).1
  refine invariant_perform (P := wired) fire (fun _ _ _ h => h) b e (fun next himm => ?_) h
  cases himm with
  | nothing => exact h
  | act _ index session a found still => exact h.perform_quiet found a still
  | begin index session found begins => exact h.perform_begin found begins _ _
  | replace old text speed scale => exact h.replace old text speed scale
  | view change => exact ⟨h.minimum, h.paced, h.known, h.single⟩

theorem wired_after {b : Bench} (h : b.desk.Wired b.agenda.entries) (events : List Event) :
    (b.after events).desk.Wired (b.after events).agenda.entries :=
  invariant_after (P := fun b => b.desk.Wired b.agenda.entries) (fun _ e h => wired_perform h e) h events

theorem wired_ofSurface (setup : Setup) (surface : Surface) (hmin : setup.minimumSpeed = .whole 1) :
    (ofSurface setup surface).desk.Wired (ofSurface setup surface).agenda.entries :=
  ⟨hmin, fun _ _ h => by simp [ofSurface] at h, fun _ h => by simp [ofSurface, Agenda.empty] at h,
    fun _ _ h => by simp [ofSurface] at h⟩

private theorem dead_after {w : WakeUp} {b : Bench} (h : b.desk.Dead w) (events : List Event) :
    (b.after events).desk.Dead w := by
  induction events generalizing b with
  | nil => exact h
  | cons e events ih =>
    have hnext : (b.perform e).1.desk.Dead w :=
      desk_perform (P := fun desk => desk.Dead w) b e (fun _ _ _ a _ found hd => hd.perform found a)
        (fun _ _ hd => hd) (fun old text speed scale _ hd => hd.replace old text speed scale) h
    exact ih hnext

/-- Nothing that the clock does touches a session that does not run. -/
private theorem resting_after {b : Bench} {i : Nat} {session : Session} (found : b.desk.sessions[i]? = some session)
    (resting : session.playback.mode ≠ .running) (events : List Event) (clock : ∀ e ∈ events, e.isClock = true) :
    (b.after events).desk.sessions[i]? = some session := by
  have step (desk : Desk) (index : Nat) (woken : Session) (generation : Nat)
      (hs : desk.sessions[index]? = some woken) (ha : woken.playback.awaits generation = true)
      (hd : desk.sessions[i]? = some session) : (desk.perform index woken .step).sessions[i]? = some session := by
    rw [Desk.getElem?_perform hs]
    split
    · rename_i hi
      rw [hi, hd] at hs
      cases hs
      simp [Playback.awaits, resting] at ha
    · exact hd
  induction events generalizing b with
  | nil => exact found
  | cons e events ih =>
    exact ih (desk_clock (P := fun desk => desk.sessions[i]? = some session) step b e (clock e List.mem_cons_self) found)
      fun x hx => clock x (List.mem_cons_of_mem e hx)

/-- However the events of any number of sessions are mixed, a running session has exactly one wake-up in the
agenda that it awaits, and any other session has none. A wake-up in the agenda that is not awaited is never
awaited again, and while a session does not run, the clock changes nothing about it. -/
theorem one_wakeUp_awaited (preset : Preset) (followed : Bool) (surface : Surface) (events : List Event) :
    let b := (ofSurface ((Settings.ofPreset preset).setup followed) surface).after events
    (∀ (i : Nat) session, b.desk.sessions[i]? = some session →
      session.playback.waiting i b.agenda.entries = if session.playback.mode = .running then 1 else 0) ∧
    (∀ e ∈ b.agenda.entries, b.desk.awaits e.task = false →
      ∀ later, (b.after later).desk.awaits e.task = false) ∧
    (∀ (i : Nat) session, b.desk.sessions[i]? = some session → session.playback.mode ≠ .running →
      ∀ later, (∀ e ∈ later, e.isClock = true) → (b.after later).desk.sessions[i]? = some session) := by
  intro b
  have hwired : b.desk.Wired b.agenda.entries :=
    wired_after (wired_ofSurface _ surface (Settings.minimumSpeed_ofPreset preset followed)) events
  refine ⟨hwired.single, ?_, ?_⟩
  · intro e he hawaits later
    exact (dead_after (hwired.dead he hawaits) later).awaits_eq
  · intro i session found resting later clock
    exact resting_after found resting later clock

end Bench

end WireCut
