import WireCut.Proofs.Bench.WakeUps

/-! What holds of each session of a bench. A property that every act of a session keeps and that a new session has is
a property of all sessions, whatever happens to any of them. -/
namespace WireCut

namespace Desk

/-- A property of a session that an act keeps is kept for all sessions of a desk. -/
theorem each_perform {Q : Session → Prop} {desk : Desk} (h : ∀ session ∈ desk.sessions, Q session) {index : Nat}
    {session : Session} (found : desk.sessions[index]? = some session) (a : Playback.Act)
    (act : Q session → Q { session with playback := (session.playback.act desk.surface a).playback }) :
    ∀ other ∈ (desk.perform index session a).sessions, Q other := by
  intro other hother
  obtain hold | rfl := List.mem_or_eq_of_mem_set hother
  · exact h other hold
  · exact act (h session (List.mem_of_getElem? found))

def Sourced (desk : Desk) : Prop :=
  ∀ session ∈ desk.sessions, session.playback.program = (Program.commands session.text).toArray

end Desk

namespace Bench
variable {Q : Session → Prop}

private theorem each_perform
    (act : ∀ session s a, Q session → Q { session with playback := (session.playback.act s a).playback })
    (fresh : ∀ setup text speed scale, Q ⟨text, .fresh setup text speed scale⟩) {b : Bench}
    (h : ∀ session ∈ b.desk.sessions, Q session) (e : Event) : ∀ session ∈ (b.perform e).1.desk.sessions, Q session := by
  have hact (desk : Desk) (index : Nat) (session : Session) (a : Playback.Act)
      (found : desk.sessions[index]? = some session) (hd : ∀ other ∈ desk.sessions, Q other) :
      ∀ other ∈ (desk.perform index session a).sessions, Q other :=
    Desk.each_perform hd found a (act session desk.surface a)
  refine desk_perform (P := fun desk => ∀ session ∈ desk.sessions, Q session) b e
    (fun desk index session a _ => hact desk index session a) (fun _ _ hd => hd) ?_ h
  intro old text speed scale _ hd session hsession
  rw [Desk.replace_eq, Session.create_eq] at hsession
  obtain hold | hnew := List.mem_append.mp hsession
  · obtain heq | ⟨index, stopped, found, heq⟩ := b.desk.stop_cases old
    · rw [heq] at hold
      exact hd session hold
    · rw [heq] at hold
      exact hact b.desk index stopped .pause found hd session hold
  · rw [List.mem_singleton.mp hnew]
    exact fresh _ text speed scale

/-- What every act keeps and every new session has holds of each session in every state of a bench. -/
theorem each_after
    (act : ∀ session s a, Q session → Q { session with playback := (session.playback.act s a).playback })
    (fresh : ∀ setup text speed scale, Q ⟨text, .fresh setup text speed scale⟩) (setup : Setup) (surface : Surface)
    (events : List Event) : ∀ session ∈ ((ofSurface setup surface).after events).desk.sessions, Q session :=
  invariant_after (P := fun b => ∀ session ∈ b.desk.sessions, Q session) (fun _ e h => each_perform act fresh h e)
    (b := ofSurface setup surface) (fun _ h => by cases h) events

theorem sourced_perform {b : Bench} (h : b.desk.Sourced) (e : Event) : (b.perform e).1.desk.Sourced := by
  let sourced (session : Session) : Prop := session.playback.program = (Program.commands session.text).toArray
  exact each_perform (Q := sourced) (fun session s a h => (session.playback.act_program s a).trans h)
    (fun _ _ _ _ => rfl) h e

theorem sourced_start (setup : Setup) (surface : Surface) (text : String) (speed : Option Quantity) (scale : Float) :
    (start setup surface text speed scale).desk.Sourced := by
  have hempty : (ofSurface setup surface).desk.Sourced := fun _ h => by cases h
  exact sourced_perform hempty (.replace none text speed scale)

end Bench

end WireCut
