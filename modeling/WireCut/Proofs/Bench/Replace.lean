import WireCut.Proofs.Bench.Beside
import WireCut.Proofs.Bench.Place

/-! Replacement of a session. A session that takes the place of another one is not touched by what the other one has
left behind, and the other one is never touched again. -/
namespace WireCut

def Playback.Act.event (index : Nat) : Playback.Act → Event
  | .step => .step index
  | .run => .run index
  | .pause => .pause index
  | .reset => .reset index
  | .setSpeed speed => .setSpeed index speed

inductive Deed where
  | act (a : Playback.Act)
  | advance (ms : Int)
  | view (change : ViewChange)

def Deed.event (index : Nat) : Deed → Event
  | act a => a.event index
  | advance ms => .advance ms
  | view change => .view change

namespace Bench

theorem perform_act {b : Bench} {index : Nat} {session : Session} (found : b.desk.sessions[index]? = some session)
    (a : Playback.Act) :
    b.perform (a.event index) =
      (⟨b.desk.perform index session a,
        if a = .run ∧ session.playback.run.2 = true
          then b.agenda.schedule 0 ⟨index, session.playback.run.1.generation⟩ else b.agenda⟩,
        if a = .step then .executed (session.playback.step b.desk.surface).2 else .nothing) := by
  cases a with
  | step => simp [Playback.Act.event, perform, found, Desk.perform, Playback.act]
  | run => simp [Playback.Act.event, perform, found, Desk.perform, Playback.act, Desk.update_eq_settle _ found]
  | pause => simp [Playback.Act.event, perform, Desk.perform, Playback.act, Desk.update_eq_settle _ found]
  | reset => simp [Playback.Act.event, perform, found, Desk.perform, Playback.act]
  | setSpeed speed => simp [Playback.Act.event, perform, Desk.perform, Playback.act, Desk.update_eq_settle _ found]

/-- A session beside others that rest, and the same session on a bench of its own. Only its own wake-ups are
compared. -/
structure Beside (retired : List Session) (past : List MarkChange) (shift : Int) (b alone : Bench) : Prop where
  desks : ∃ session, Desk.Beside retired past session b.desk alone.desk
  agendas : Agenda.Hosts (WakeUp.ofSession retired.length) shift b.agenda alone.agenda

namespace Beside
variable {retired : List Session} {past : List MarkChange} {shift : Int} {b alone : Bench}

private theorem deed (h : Beside retired past shift b alone) (d : Deed) :
    Beside retired past shift (b.perform (d.event retired.length)).1 (alone.perform (d.event 0)).1 := by
  obtain ⟨session, hdesk⟩ := h.desks
  cases d with
  | act a =>
    obtain ⟨hfound, hfound'⟩ := hdesk.found
    rw [Deed.event, Deed.event, perform_act hfound, perform_act hfound']
    refine ⟨⟨_, hdesk.perform a⟩, ?_⟩
    dsimp only
    split
    · exact h.agendas.schedule 0 (if_pos rfl)
    · exact h.agendas
  | advance ms =>
    obtain ⟨hagendas, hdesks⟩ :=
      h.agendas.advance (Desk.simulation_react retired past) Desk.pays_react h.desks ms
    exact ⟨hdesks, hagendas⟩
  | view change => exact ⟨⟨session, hdesk.view change⟩, h.agendas⟩

private theorem reply (h : Beside retired past shift b alone) (a : Playback.Act) :
    (b.perform (a.event retired.length)).2 = (alone.perform (a.event 0)).2 := by
  obtain ⟨session, hdesk⟩ := h.desks
  obtain ⟨hfound, hfound'⟩ := hdesk.found
  rw [perform_act hfound, perform_act hfound', hdesk.surface_eq]

private theorem after (h : Beside retired past shift b alone) (deeds : List Deed) :
    Beside retired past shift (b.after (deeds.map (Deed.event retired.length)))
      (alone.after (deeds.map (Deed.event 0))) := by
  induction deeds generalizing b alone with
  | nil => exact h
  | cons d deeds ih => exact ih (h.deed d)

end Beside

theorem sorted_perform {b : Bench} (h : Agenda.Sorted b.agenda.entries) (e : Event) :
    Agenda.Sorted (b.perform e).1.agenda.entries := by
  refine invariant_perform (P := fun agenda _ => Agenda.Sorted agenda.entries) ?_ (fun _ _ _ h => h) b e ?_ h
  · intro agenda desk x rest he hsorted
    rw [he] at hsorted
    have hrest : Agenda.Sorted (agenda.taken x.due rest).entries := (List.pairwise_cons.mp hsorted).2
    exact Agenda.sorted_scheduleAll hrest _
  · intro next himm
    cases himm with
    | begin index session found begins => exact Agenda.sorted_insert _ h
    | _ => exact h

/-- What happens to a session and its successors: it acts, waiting wake-ups are called, or a new session takes its
place. -/
inductive Turn where
  | deed (d : Deed)
  | runPending (limit : Nat)
  | replace (text : String) (speed : Option Quantity) (scale : Float)

def Turn.event (index : Nat) : Turn → Event
  | deed d => d.event index
  | runPending limit => .runPending limit
  | replace text speed scale => .replace (some index) text speed scale

def newest (b : Bench) : Nat := b.desk.sessions.length - 1

/-- The bench after a list of turns, each one taken by the session that is then the newest. -/
def turns (b : Bench) (ts : List Turn) : Bench :=
  ts.foldl (fun b t => (b.perform (t.event b.newest)).1) b

structure Succession (setup : Setup) (b : Bench) : Prop where
  setup_eq : b.desk.setup = setup
  wired : b.desk.Wired b.agenda.entries
  sorted : Agenda.Sorted b.agenda.entries
  newest : ∃ older old, b.desk.sessions = older ++ [old] ∧ ∀ other ∈ older, other.playback.mode ≠ .running

end Bench

private theorem Session.retire_resting {older : List Session} (resting : ∀ other ∈ older, other.playback.mode ≠ .running)
    (old : Session) : ∀ other ∈ older ++ [old.retire], other.playback.mode ≠ .running := by
  intro other hother
  obtain hother | hother := List.mem_append.mp hother
  · exact resting other hother
  · rw [List.mem_singleton.mp hother]
    by_cases hm : old.playback.mode = .running <;> simp [retire, Playback.pause, hm]

namespace Desk

private theorem replace_newest {desk : Desk} {older : List Session} {old : Session} (h : desk.sessions = older ++ [old])
    (text : String) (speed : Option Quantity) (scale : Float) :
    desk.replace (some older.length) text speed scale =
      ({ desk with sessions := older ++ [old.retire] }).opened
        (Session.create desk.setup text speed scale desk.surface) := by
  have hstop : desk.stop (some older.length) = { desk with sessions := older ++ [old.retire] } := by
    rw [stop, update_eq_settle _ (getElem?_newest h), settle, h, List.set_append_right _ _ (Nat.le_refl _),
      Nat.sub_self]
    rfl
  rw [replace_eq, hstop]

private theorem setup_opened (desk : Desk) (opening : Opened) : (desk.opened opening).setup = desk.setup := rfl

private theorem setup_perform (desk : Desk) (index : Nat) (session : Session) (a : Playback.Act) :
    (desk.perform index session a).setup = desk.setup := rfl

end Desk

namespace Bench

theorem setup_perform {b : Bench} {setup : Setup} (h : b.desk.setup = setup) (e : Event) :
    (b.perform e).1.desk.setup = setup := by
  refine desk_perform (P := fun desk => desk.setup = setup) b e (fun _ _ _ _ _ _ h => h) (fun _ _ h => h) ?_ h
  intro old text speed scale _ h
  obtain heq | ⟨index, session, -, heq⟩ := b.desk.stop_cases old
  · rw [Desk.replace_eq, heq, Desk.setup_opened, h]
  · rw [Desk.replace_eq, heq, Desk.setup_opened, Desk.setup_perform, h]

namespace Succession
variable {setup : Setup} {b : Bench}

theorem start (surface : Surface) (text : String) (speed : Option Quantity) (scale : Float)
    (hmin : setup.minimumSpeed = .whole 1) : Succession setup (start setup surface text speed scale) := by
  have hwired := wired_perform (wired_ofSurface setup surface hmin) (.replace none text speed scale)
  refine ⟨?_, hwired, List.Pairwise.nil, [], ⟨text, .fresh setup text speed scale⟩, ?_, ?_⟩
  · rw [start_desk]
  · rw [start_desk]
    rfl
  · intro other hother
    cases hother

theorem newest_eq {older : List Session} {old : Session} (h : b.desk.sessions = older ++ [old]) :
    b.newest = older.length := by
  rw [Bench.newest, h, List.length_append, List.length_singleton, Nat.add_sub_cancel]

/-- Only the newest session can be woken, so it alone acts while the clock moves. What its steps keep holds of it, the
surface and the marks. -/
private theorem newest_clock {P : Session → Surface → List MarkChange → Prop}
    (step : ∀ session s marks, P session s marks →
      P { session with playback := (session.playback.act s .step).playback } (session.playback.act s .step).surface
        ((session.playback.act s .step).marks.reverse ++ marks))
    {older : List Session} {old : Session} (hsessions : b.desk.sessions = older ++ [old])
    (h : P old b.desk.surface b.desk.marks) (resting : ∀ other ∈ older, other.playback.mode ≠ .running) (e : Event)
    (clock : e.isClock = true) :
    ∃ new, (b.perform e).1.desk.sessions = older ++ [new] ∧
      P new (b.perform e).1.desk.surface (b.perform e).1.desk.marks := by
  refine desk_clock (P := fun desk => ∃ new, desk.sessions = older ++ [new] ∧ P new desk.surface desk.marks) ?_ b e clock
    ⟨old, hsessions, h⟩
  rintro desk index session generation found ha ⟨new, hnew, hP⟩
  have hindex : index = older.length := by
    have hlt := (List.getElem?_eq_some_iff.mp found).1
    rw [hnew, List.length_append, List.length_singleton] at hlt
    by_contra hne
    rw [hnew, List.getElem?_append_left (by omega)] at found
    exact resting session (List.mem_of_getElem? found) (Playback.awaits_iff.mp ha).2
  subst hindex
  rw [Desk.getElem?_newest hnew] at found
  cases found
  exact ⟨_, Desk.settle_newest hnew _, step session desk.surface desk.marks hP⟩

def NewestHas (P : Session → Surface → List MarkChange → Prop) (b : Bench) : Prop :=
  ∃ older session, b.desk.sessions = older ++ [session] ∧ P session b.desk.surface b.desk.marks ∧
    ∀ other ∈ older, other.playback.mode ≠ .running

/-- What every act of a session and every change of the view keeps, and what every new session has, the newest session
has after a turn. -/
private theorem newestHas_turn {P : Session → Surface → List MarkChange → Prop}
    (act : ∀ session s marks a, P session s marks →
      P { session with playback := (session.playback.act s a).playback } (session.playback.act s a).surface
        ((session.playback.act s a).marks.reverse ++ marks))
    (view : ∀ session s marks change, P session s marks → P session (s.view change) marks)
    (opened : ∀ text speed scale s marks, let opening := Session.create setup text speed scale s
      P opening.session opening.surface (opening.marks.reverse ++ marks))
    (hsetup : b.desk.setup = setup) (h : NewestHas P b) (t : Turn) :
    NewestHas P (b.perform (t.event b.newest)).1 := by
  obtain ⟨older, old, hsessions, hP, resting⟩ := h
  have hfound := Desk.getElem?_newest hsessions
  have clock (e : Event) (he : e.isClock = true) : NewestHas P (b.perform e).1 := by
    obtain ⟨new, hnew, hPnew⟩ :=
      newest_clock (P := P) (fun session s marks => act session s marks .step) hsessions hP resting e he
    exact ⟨older, new, hnew, hPnew, resting⟩
  rw [newest_eq hsessions]
  cases t with
  | deed d =>
    cases d with
    | act a =>
      rw [Turn.event, Deed.event, perform_act hfound]
      exact ⟨older, _, Desk.settle_newest hsessions _, act old b.desk.surface b.desk.marks a hP, resting⟩
    | advance ms => exact clock (.advance ms) rfl
    | view change => exact ⟨older, old, hsessions, view old b.desk.surface b.desk.marks change hP, resting⟩
  | runPending limit => exact clock (.runPending limit) rfl
  | replace text speed scale =>
    have hnext : (b.perform ((Turn.replace text speed scale).event older.length)).1.desk =
        ({ b.desk with sessions := older ++ [old.retire] }).opened
          (Session.create setup text speed scale b.desk.surface) := by
      rw [← hsetup]
      exact Desk.replace_newest hsessions text speed scale
    rw [NewestHas, hnext]
    exact ⟨older ++ [old.retire], _, rfl, opened text speed scale b.desk.surface b.desk.marks,
      Session.retire_resting resting old⟩

private theorem turn (h : Succession setup b) (t : Turn) : Succession setup (b.perform (t.event b.newest)).1 := by
  refine ⟨setup_perform h.setup_eq _, wired_perform h.wired _, sorted_perform h.sorted _, ?_⟩
  obtain ⟨older, old, hsessions, resting⟩ := h.newest
  obtain ⟨older', new, hnew, -, resting'⟩ := newestHas_turn (P := fun _ _ _ => True) (fun _ _ _ _ h => h)
    (fun _ _ _ _ h => h) (fun _ _ _ _ _ => trivial) h.setup_eq ⟨older, old, hsessions, trivial, resting⟩ t
  exact ⟨older', new, hnew, resting'⟩

theorem turns (h : Succession setup b) (ts : List Turn) : Succession setup (b.turns ts) := by
  induction ts generalizing b with
  | nil => exact h
  | cons t ts ih => exact ih (h.turn t)

/-- The same holds of a bench after every list of turns, from its first session on. -/
theorem newestHas_turns {P : Session → Surface → List MarkChange → Prop}
    (act : ∀ session s marks a, P session s marks →
      P { session with playback := (session.playback.act s a).playback } (session.playback.act s a).surface
        ((session.playback.act s a).marks.reverse ++ marks))
    (view : ∀ session s marks change, P session s marks → P session (s.view change) marks)
    (opened : ∀ text speed scale s marks, let opening := Session.create setup text speed scale s
      P opening.session opening.surface (opening.marks.reverse ++ marks))
    (surface : Surface) (text : String) (speed : Option Quantity) (scale : Float) (ts : List Turn) :
    NewestHas P ((Bench.start setup surface text speed scale).turns ts) := by
  have run {b : Bench} (hsetup : b.desk.setup = setup) (h : NewestHas P b) : NewestHas P (b.turns ts) := by
    induction ts generalizing b with
    | nil => exact h
    | cons t ts ih => exact ih (setup_perform hsetup _) (newestHas_turn act view opened hsetup h t)
  refine run (by rw [start_desk]) ⟨[], _, rfl, opened text speed scale surface [], ?_⟩
  intro other hother
  cases hother

/-- When a session is replaced, the new one is beside the others as one on a bench of its own. -/
private theorem replace (h : Succession setup b) (hmin : setup.minimumSpeed = .whole 1) {older : List Session} {old : Session}
    (hsessions : b.desk.sessions = older ++ [old]) (resting : ∀ other ∈ older, other.playback.mode ≠ .running)
    (text : String) (speed : Option Quantity) (scale : Float) :
    Beside (older ++ [old.retire]) b.desk.marks b.agenda.now
      (b.perform (.replace (some older.length) text speed scale)).1
      (Bench.start setup (.ofSize b.desk.surface.width b.desk.surface.height) text speed scale) := by
  obtain rfl := h.setup_eq
  have hdesk : (b.perform (.replace (some older.length) text speed scale)).1.desk =
      ({ b.desk with sessions := older ++ [old.retire] }).opened
        (Session.create b.desk.setup text speed scale b.desk.surface) := by
    rw [perform, Desk.replace_newest hsessions]
  refine ⟨⟨⟨text, .fresh b.desk.setup text speed scale⟩, ?_⟩, ?_⟩
  · rw [hdesk, start_desk, Session.create_eq]
    refine ⟨rfl, rfl, rfl, ?_, Session.retire_resting resting old, hmin, ⟨speed, rfl⟩⟩
    cases b.desk.setup.followed <;> simp [Desk.opened]
  · refine ⟨(Int.zero_add _).symm, h.sorted, Agenda.Among.of_none ?_⟩
    -- a wake-up that waits is one of a session that is there already
    intro x hx
    obtain ⟨session, found, -⟩ := h.wired.known x hx
    have hlt := (List.getElem?_eq_some_iff.mp found).1
    rw [hsessions, List.length_append, List.length_singleton] at hlt
    rw [WakeUp.ofSession, if_neg]
    rw [List.length_append, List.length_singleton]
    omega

end Succession

/-- A session that replaces another one, in whatever state that one is and whatever it has left in the agenda, goes on
with the surface, its own wake-ups and the editor exactly as a session on a bench of its own with an empty surface of
the same size. The old session has been stopped, and nothing changes about it or about those before it any more. -/
theorem successor_acts_alone (preset : Preset) (followed : Bool) (surface : Surface) (first : String)
    (firstSpeed : Option Quantity) (firstScale : Float) (ts : List Turn) (text : String) (speed : Option Quantity)
    (scale : Float) (deeds : List Deed) :
    let setup := (Settings.ofPreset preset).setup followed
    let b := (start setup surface first firstSpeed firstScale).turns ts
    let later := (b.perform (.replace (some b.newest) text speed scale)).1.after
      (deeds.map (Deed.event (b.newest + 1)))
    let alone := (start setup (.ofSize b.desk.surface.width b.desk.surface.height) text speed scale).after
      (deeds.map (Deed.event 0))
    ∃ older old session, b.desk.sessions = older ++ [old] ∧
      later.desk.sessions = older ++ [old.retire, session] ∧ alone.desk.sessions = [session] ∧
      later.desk.surface = alone.desk.surface ∧ later.desk.marks = alone.desk.marks ++ b.desk.marks ∧
      ∀ a : Playback.Act, (later.perform (a.event (b.newest + 1))).2 = (alone.perform (a.event 0)).2 := by
  intro setup b later alone
  have hmin : setup.minimumSpeed = .whole 1 := Settings.minimumSpeed_ofPreset preset followed
  have hb : Succession setup b := (Succession.start surface first firstSpeed firstScale hmin).turns ts
  obtain ⟨older, old, hsessions, resting⟩ := hb.newest
  have hnewest := Succession.newest_eq hsessions
  have hplace : b.newest + 1 = (older ++ [old.retire]).length := by
    rw [hnewest, List.length_append, List.length_singleton]
  have hreplaced := hb.replace hmin hsessions resting text speed scale
  rw [← hnewest] at hreplaced
  have hlater : Beside (older ++ [old.retire]) b.desk.marks b.agenda.now later alone := by
    have hafter := hreplaced.after deeds
    rwa [← hplace] at hafter
  obtain ⟨session, hdesks⟩ := hlater.desks
  refine ⟨older, old, session, hsessions, ?_, hdesks.alone_eq, hdesks.surface_eq, hdesks.marks_eq, ?_⟩
  · rw [hdesks.sessions_eq, List.append_assoc]
    rfl
  · intro a
    rw [hplace]
    exact hlater.reply a

end Bench

end WireCut
