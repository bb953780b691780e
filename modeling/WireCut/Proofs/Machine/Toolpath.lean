import Mathlib.Data.List.Chain
import WireCut.Proofs.Machine.Replay

/-! The toolpath. Each register of the machine is what the last command that writes it has left there, and the feeds
of a program follow on one another without a gap. -/
namespace WireCut

def Instruction.code : Instruction → String
  | cut => "G01"
  | arc true => "G02"
  | arc false => "G03"
  | absolute => "G90"
  | relative => "G91"
  | setOrigin => "G92"
  | finish => "M02"

private theorem Instruction.ofCode?_code (i : Instruction) : ofCode? i.code = some i := by
  rcases i with _ | ⟨_ | _⟩ | _ <;> rfl

private theorem Instruction.ofCode?_eq_some {code : String} {i : Instruction} : ofCode? code = some i ↔ code = i.code := by
  constructor
  · intro h
    unfold ofCode? at h
    split at h <;> cases h <;> rfl
  · rintro rfl
    exact i.ofCode?_code

structure Feed where
  start : Point
  stop : Point
deriving DecidableEq

def Request.feed? : Request → Option Feed
  | .linear _ start stop => some ⟨start, stop⟩
  | .arc _ start stop _ => some ⟨start, stop⟩
  | .finish _ => none

def Executed.feed? (done : Executed) : Option Feed :=
  done.request.bind Request.feed?

namespace Command

def mode? (c : Command) : Option DistanceMode :=
  if c.code = "G90" then some .absolute else if c.code = "G91" then some .relative else none

def setsOrigin (c : Command) : Bool :=
  c.code = "G92"

end Command

namespace Machine

def path (m : Machine) (cs : List Command) : List Feed :=
  (m.executeAll cs).filterMap Executed.feed?

def zeros (m : Machine) : List Command → List Point
  | [] => []
  | c :: cs =>
    if c.setsOrigin then m.position :: zeros (m.execute c).machine cs else zeros (m.execute c).machine cs

/-- What a command does to each register of the machine, and the feed that it makes if it is a cut. -/
structure Writes (m : Machine) (c : Command) (done : Executed) : Prop where
  feed : done.feed? = if c.isCut then some ⟨m.position, m.target c⟩ else none
  position : done.machine.position = if c.isCut then m.target c else m.position
  previous : done.machine.previous = if c.isCut then m.position else m.previous
  origin : done.machine.origin = if c.setsOrigin then m.position else m.origin
  mode : done.machine.mode = c.mode?.getD m.mode

theorem writes_execute (m : Machine) (c : Command) : m.Writes c (m.execute c) := by
  unfold execute
  cases hi : Instruction.ofCode? c.code with
  | none =>
    unfold Instruction.ofCode? at hi
    split at hi
    case h_8 => constructor <;> simp_all [Executed.feed?, Command.isCut, Command.setsOrigin, Command.mode?]
    all_goals cases hi
  | some i =>
    have hcode := Instruction.ofCode?_eq_some.mp hi
    rcases i with _ | ⟨_ | _⟩ | _ <;> constructor <;>
      simp [perform, moveTo, setOrigin, Executed.feed?, Request.feed?, Command.isCut, Command.setsOrigin,
        Command.mode?, hcode, Instruction.code]

private theorem path_concat (m : Machine) (cs : List Command) (c : Command) :
    m.path (cs ++ [c]) = m.path cs ++ ((m.replay cs).execute c).feed?.toList :=
  filterMap_executeAll_concat _ m cs c

private theorem zeros_concat (m : Machine) (cs : List Command) (c : Command) :
    m.zeros (cs ++ [c]) = m.zeros cs ++ if c.setsOrigin then [(m.replay cs).position] else [] := by
  induction cs generalizing m with
  | nil => rfl
  | cons d cs ih =>
    rw [List.cons_append, zeros, zeros, ih]
    split <;> rfl

/-- What a machine recalls of a list of commands that have brought it from one state to another. -/
structure Recalls (m : Machine) (cs : List Command) (reached : Machine) : Prop where
  position : reached.position = (m.path cs).getLast?.elim m.position Feed.stop
  previous : reached.previous = (m.path cs).getLast?.elim m.previous Feed.start
  origin : reached.origin = (m.zeros cs).getLast?.getD m.origin
  mode : reached.mode = (cs.filterMap Command.mode?).getLast?.getD m.mode
  gapless : (⟨m.previous, m.position⟩ :: m.path cs).IsChain fun earlier later => earlier.stop = later.start

/-- One more command is recalled by the registers that it writes. -/
private theorem Recalls.concat {m : Machine} {cs : List Command} (h : m.Recalls cs (m.replay cs)) (c : Command) :
    m.Recalls (cs ++ [c]) (m.replay (cs ++ [c])) := by
  have hwrites := (m.replay cs).writes_execute c
  have hlast {α : Type} (l : List α) (next : Option α) : (l ++ next.toList).getLast? = next.or l.getLast? := by
    cases next <;> simp
  rw [replay_concat]
  constructor
  · rw [hwrites.position, path_concat, hlast, hwrites.feed, h.position]
    split <;> rfl
  · rw [hwrites.previous, path_concat, hlast, hwrites.feed, h.previous]
    split <;> rfl
  · rw [hwrites.origin, zeros_concat, h.origin]
    split <;> simp
  · rw [hwrites.mode, List.filterMap_append, h.mode]
    cases hmode : c.mode? <;> simp [hmode]
  · rw [path_concat, hwrites.feed, ← List.cons_append, List.isChain_append]
    split
    · refine ⟨h.gapless, .singleton _, ?_⟩
      rintro earlier hearlier later ⟨⟩
      -- the feed before is the one that has left the wire where it is
      rw [List.getLast?_cons, Option.mem_some_iff] at hearlier
      subst hearlier
      rw [h.position]
      cases (m.path cs).getLast? <;> rfl
    · exact ⟨h.gapless, .nil, nofun⟩

private theorem recalls_replay (m : Machine) (cs : List Command) : m.Recalls cs (m.replay cs) := by
  induction cs using List.reverseRecOn with
  | nil => exact ⟨rfl, rfl, rfl, rfl, .singleton _⟩
  | append_singleton cs c ih => exact ih.concat c

/-- The cuts of a list of commands, and no others, have a feed. -/
private theorem executeAll_feeds (m : Machine) (cs : List Command) :
    (m.executeAll cs).map (fun done => done.feed?.isSome) = cs.map Command.isCut := by
  induction cs generalizing m with
  | nil => rfl
  | cons c cs ih =>
    rw [executeAll, List.map_cons, List.map_cons, ih, (m.writes_execute c).feed]
    cases c.isCut <;> rfl

/-- After each prefix of a program the wire is at the end of the last feed, and it was at its start before. The origin
is the position at the last command that set it, and the mode is the last one that was set, while no command touches
the scale or the cursor. Each feed starts exactly where the one before has ended, the first one at the origin of the
plane, and nothing but a cut has a feed. -/
theorem replay_recalls (scale : Float) (cs : List Command) (n : Nat) :
    let done := cs.take n
    let m := (powerOn scale).replay done
    let path := (powerOn scale).path done
    m.position = path.getLast?.elim .origin Feed.stop ∧
      m.previous = path.getLast?.elim .origin Feed.start ∧
      m.origin = ((powerOn scale).zeros done).getLast?.getD .origin ∧
      m.mode = (done.filterMap Command.mode?).getLast?.getD .absolute ∧
      m.scale = scale ∧ m.cursor = 0 ∧
      (∀ c, (m.execute c).machine.scale = m.scale ∧ (m.execute c).machine.cursor = m.cursor) ∧
      (⟨.origin, .origin⟩ :: path).IsChain (fun earlier later => earlier.stop = later.start) ∧
      ((powerOn scale).executeAll done).map (fun executed => executed.feed?.isSome) = done.map Command.isCut := by
  intro done m path
  have h := (powerOn scale).recalls_replay done
  exact ⟨h.position, h.previous, h.origin, h.mode, replay_scale _ done, replay_cursor _ done,
    fun c => ⟨m.execute_scale c, m.execute_cursor c⟩, h.gapless, executeAll_feeds _ done⟩

/-- A relative move past the largest number, with a new origin in front of it, and one back from infinity. -/
example :
    let cs := Program.commands "G91\nG01 X1e308 Y2\nG92\nG01 X1e308\nG99 X3\nG01 X-1 Y1"
    (powerOn 1).path cs =
        [⟨⟨0, 0⟩, ⟨1e308, 2⟩⟩, ⟨⟨1e308, 2⟩, ⟨infinity, 2⟩⟩, ⟨⟨infinity, 2⟩, ⟨infinity, 3⟩⟩] ∧
      (powerOn 1).zeros cs = [⟨1e308, 2⟩] ∧ cs.filterMap Command.mode? = [.relative] := by
  decide +kernel

end Machine

end WireCut
