import WireCut.Proofs.Agenda.Among
import WireCut.Proofs.Bench.WakeUps

/-! A session beside others that rest. Whatever is done with it does the same at a desk of its own, whatever wake-ups
of the other sessions still wait in the agenda. -/
namespace WireCut

/-- A step that goes on running has executed a command. -/
theorem Playback.step_remaining (p : Playback) (s : Surface) :
    (p.act s .step).playback.remaining + (if (p.act s .step).playback.mode = .running then 1 else 0) ≤ p.remaining := by
  rw [act]
  obtain ⟨c, -, hc, heq⟩ | ⟨-, heq⟩ := p.step_cases s
  · have hprogram : (p.executeCommand s c).playback.program = p.program := by
      rw [executeCommand_eq, settle_program, executed_program]
    have hlt : p.cursor < p.program.size := (Array.getElem?_eq_some_iff.mp hc).1
    rw [heq]
    simp only [remaining, executeCommand_cursor, hprogram]
    split <;> omega
  · rw [heq]
    exact Nat.le_refl _

namespace Desk

def total (weight : Playback → Nat) (desk : Desk) : Nat :=
  (desk.sessions.map fun session => weight session.playback).sum

theorem remaining_eq_total : remaining = total Playback.remaining := by
  funext desk
  rw [remaining, total, List.sum, List.foldr_map]

private theorem total_settle (weight : Playback → Nat) {desk : Desk} {index : Nat} {session : Session}
    (found : desk.sessions[index]? = some session) (played : Played) :
    (desk.settle index session played).total weight + weight session.playback =
      desk.total weight + weight played.playback := by
  obtain ⟨setup, surface, sessions, marks⟩ := desk
  simp only [total, settle] at found ⊢
  induction sessions generalizing index with
  | nil => cases found
  | cons first sessions ih =>
    cases index with
    | zero =>
      cases found
      simp only [List.set_cons_zero, List.map_cons, List.sum_cons]
      omega
    | succ index =>
      have hrest := ih found
      simp only [List.set_cons_succ, List.map_cons, List.sum_cons]
      omega

theorem react_posts (desk : Desk) (now : Int) (wakeUp : WakeUp) : (desk.react now wakeUp).posts.length ≤ 1 := by
  unfold react
  split
  · exact Nat.zero_le _
  · dsimp only
    split
    · exact Nat.zero_le _
    · exact Nat.zero_le _
    · exact Nat.le_refl _

theorem posts_task (desk : Desk) (now : Int) (wakeUp : WakeUp) {post : Int × WakeUp}
    (h : post ∈ (desk.react now wakeUp).posts) : post.2 = wakeUp := by
  unfold react at h
  split at h
  · cases h
  · dsimp only at h
    split at h
    · cases h
    · cases h
    · rw [List.mem_singleton.mp h]

/-- If every step that goes on running lowers the weight of its session, wake-ups pay for those they schedule. -/
theorem pays_total {weight : Playback → Nat}
    (step : ∀ (p : Playback) s, p.mode = .running → weight (p.act s .step).playback +
      (if (p.act s .step).playback.mode = .running then 1 else 0) ≤ weight p) :
    Agenda.Pays Desk.react (total weight) := by
  intro desk now wakeUp
  by_cases ha : ∃ session, desk.sessions[wakeUp.session]? = some session ∧
      session.playback.awaits wakeUp.generation = true
  · obtain ⟨session, found, hawaits⟩ := ha
    obtain ⟨hworld, hposts⟩ := react_of_awaits now found hawaits
    have hone := desk.react_posts now wakeUp
    have hsettle := total_settle weight found (session.playback.act desk.surface .step)
    have hstep := step session.playback desk.surface (Playback.awaits_iff.mp hawaits).2
    rw [hworld, perform]
    by_cases hm : (session.playback.act desk.surface .step).playback.mode = .running
    · rw [if_pos hm] at hstep
      omega
    · rw [((hposts _ rfl).1 hm).1, List.length_nil]
      rw [if_neg hm] at hstep
      omega
  · rw [react_of_not_awaits]
    · exact Nat.le_of_eq (Nat.zero_add _)
    · intro session found
      cases hawaits : session.playback.awaits wakeUp.generation with
      | false => rfl
      | true => exact absurd ⟨session, found, hawaits⟩ ha

/-- A wake-up is scheduled again only after a command. -/
theorem pays_react : Agenda.Pays Desk.react Desk.remaining :=
  remaining_eq_total ▸ pays_total fun p s _ => p.step_remaining s

theorem getElem?_newest {desk : Desk} {older : List Session} {session : Session}
    (h : desk.sessions = older ++ [session]) : desk.sessions[older.length]? = some session := by
  rw [h]
  simp

theorem settle_newest {desk : Desk} {older : List Session} {session : Session}
    (h : desk.sessions = older ++ [session]) (played : Played) :
    (desk.settle older.length session played).sessions = older ++ [{ session with playback := played.playback }] := by
  rw [settle, h, List.set_append_right _ _ (Nat.le_refl _), Nat.sub_self]
  rfl

/-- A wake-up of any session but the last one is not awaited, if the others rest. -/
theorem not_awaits_resting {desk : Desk} {retired : List Session} {session : Session}
    (h : desk.sessions = retired ++ [session]) (resting : ∀ other ∈ retired, other.playback.mode ≠ .running)
    {index : Nat} (hne : index ≠ retired.length) (generation : Nat) (other : Session)
    (found : desk.sessions[index]? = some other) : other.playback.awaits generation = false := by
  have hlt : index < retired.length := by
    have := (List.getElem?_eq_some_iff.mp found).1
    rw [h, List.length_append, List.length_singleton] at this
    omega
  rw [h, List.getElem?_append_left hlt] at found
  have hresting := resting other (List.mem_of_getElem? found)
  simp [Playback.awaits, hresting]

theorem react_idle {desk : Desk} {wakeUp : WakeUp} {session : Session}
    (found : desk.sessions[wakeUp.session]? = some session)
    (idle : session.playback.awaits wakeUp.generation = false) (now : Int) :
    desk.react now wakeUp = ⟨desk, [], none⟩ := by
  refine react_of_not_awaits now fun other hother => ?_
  rw [found] at hother
  cases hother
  exact idle

/-- Two wake-ups that are awaited at two desks, by sessions whose step leaves them with one mode and one interval,
are scheduled again alike. -/
theorem react_alike {desk alone : Desk} {wakeUp wakeUp' : WakeUp} {session other : Session} (now now' : Int)
    (found : desk.sessions[wakeUp.session]? = some session) (found' : alone.sessions[wakeUp'.session]? = some other)
    (awaits : session.playback.awaits wakeUp.generation = true)
    (awaits' : other.playback.awaits wakeUp'.generation = true) {p q : Playback}
    (hp : (session.playback.act desk.surface .step).playback = p)
    (hq : (other.playback.act alone.surface .step).playback = q) (hmode : p.mode = q.mode)
    (hinterval : p.interval = q.interval) (hok : ∃ delay, p.interval = .ok delay) :
    (desk.react now wakeUp).world = desk.perform wakeUp.session session .step ∧
      (alone.react now' wakeUp').world = alone.perform wakeUp'.session other .step ∧
      (desk.react now wakeUp).failure = none ∧ (alone.react now' wakeUp').failure = none ∧
      ∃ delays : List Int, (desk.react now wakeUp).posts = delays.map (·, wakeUp) ∧
        (alone.react now' wakeUp').posts = delays.map (·, wakeUp') := by
  obtain ⟨hworld, hposts⟩ := react_of_awaits now found awaits
  obtain ⟨hworld', hposts'⟩ := react_of_awaits now' found' awaits'
  obtain ⟨hstopped, hrunning⟩ := hposts p hp.symm
  obtain ⟨hstopped', hrunning'⟩ := hposts' q hq.symm
  by_cases hm : p.mode = .running
  · obtain ⟨delay, hdelay⟩ := hok
    obtain ⟨hpost, hnone⟩ := hrunning hm delay hdelay
    obtain ⟨hpost', hnone'⟩ := hrunning' (hmode ▸ hm) delay (hinterval ▸ hdelay)
    exact ⟨hworld, hworld', hnone, hnone', [delay], hpost, hpost'⟩
  · obtain ⟨hpost, hnone⟩ := hstopped hm
    obtain ⟨hpost', hnone'⟩ := hstopped' (hmode ▸ hm)
    exact ⟨hworld, hworld', hnone, hnone', [], hpost, hpost'⟩

/-- A session at the end of a desk, behind sessions that rest, and the same session at a desk of its own. Both desks
have the same surface, and the first one has older marks. -/
structure Beside (retired : List Session) (past : List MarkChange) (session : Session) (desk alone : Desk) : Prop where
  sessions_eq : desk.sessions = retired ++ [session]
  alone_eq : alone.sessions = [session]
  surface_eq : desk.surface = alone.surface
  marks_eq : desk.marks = alone.marks ++ past
  resting : ∀ other ∈ retired, other.playback.mode ≠ .running
  minimum : session.playback.setup.minimumSpeed = .whole 1
  paced : session.playback.Paced

namespace Beside
variable {retired : List Session} {past : List MarkChange} {session : Session} {desk alone : Desk}

theorem found (h : Beside retired past session desk alone) :
    desk.sessions[retired.length]? = some session ∧ alone.sessions[0]? = some session :=
  ⟨getElem?_newest h.sessions_eq, @getElem?_newest alone [] session h.alone_eq⟩

theorem perform (h : Beside retired past session desk alone) (a : Playback.Act) :
    Beside retired past { session with playback := (session.playback.act desk.surface a).playback }
      (desk.perform retired.length session a) (alone.perform 0 session a) := by
  refine ⟨settle_newest h.sessions_eq _, ?_, ?_, ?_, h.resting, ?_, h.paced.act desk.surface a⟩
  · rw [h.surface_eq]
    exact @settle_newest alone [] session h.alone_eq _
  · simp only [Desk.perform, settle, h.surface_eq]
  · simp only [Desk.perform, settle, h.surface_eq, h.marks_eq, List.append_assoc]
  · rw [session.playback.act_setup desk.surface a]
    exact h.minimum

theorem view (h : Beside retired past session desk alone) (change : ViewChange) :
    Beside retired past session { desk with surface := desk.surface.view change }
      { alone with surface := alone.surface.view change } :=
  ⟨h.sessions_eq, h.alone_eq, by rw [h.surface_eq], h.marks_eq, h.resting, h.minimum, h.paced⟩

end Beside

end Desk

def WakeUp.ofSession (index : Nat) (wakeUp : WakeUp) : Option WakeUp :=
  if wakeUp.session = index then some { wakeUp with session := 0 } else none

namespace Desk

theorem simulation_react (retired : List Session) (past : List MarkChange) :
    Agenda.Simulation Desk.react (WakeUp.ofSession retired.length)
      fun desk alone => ∃ session, Beside retired past session desk alone := by
  refine ⟨?_, ?_⟩
  · -- a wake-up of another session finds that session at rest
    rintro desk alone ⟨session, h⟩ now wakeUp hother
    have hne : wakeUp.session ≠ retired.length := by
      intro heq
      rw [WakeUp.ofSession, if_pos heq] at hother
      cases hother
    rw [react_of_not_awaits now (not_awaits_resting h.sessions_eq h.resting hne wakeUp.generation)]
    exact ⟨⟨session, h⟩, rfl, nofun⟩
  · rintro desk alone ⟨session, h⟩ now now' ⟨index, generation⟩ wakeUp' hkept
    obtain ⟨rfl, rfl⟩ : index = retired.length ∧ wakeUp' = ⟨0, generation⟩ := by
      rw [WakeUp.ofSession] at hkept
      split at hkept
      · cases hkept
        exact ⟨‹_›, rfl⟩
      · cases hkept
    obtain ⟨hfound, hfound'⟩ := h.found
    cases ha : session.playback.awaits generation with
    | false =>
      rw [@react_idle desk ⟨retired.length, generation⟩ session hfound ha,
        @react_idle alone ⟨0, generation⟩ session hfound' ha]
      exact ⟨⟨session, h⟩, rfl, rfl, rfl⟩
    | true =>
      have hnext := h.perform .step
      obtain ⟨hworld, hworld', hok, hok', delays, hposts, hposts'⟩ :=
        @react_alike desk alone ⟨retired.length, generation⟩ ⟨0, generation⟩ session session now now' hfound hfound'
          ha ha _ _ rfl rfl (by rw [h.surface_eq]) (by rw [h.surface_eq]) (hnext.paced.interval_ok hnext.minimum)
      refine ⟨⟨_, by rw [hworld, hworld']; exact hnext⟩, hok, hok', ?_⟩
      rw [hposts, hposts', List.map_map, List.map_map]
      simp [WakeUp.ofSession]

end Desk

end WireCut
