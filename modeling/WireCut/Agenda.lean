/-! An agenda of tasks on a clock of milliseconds. Tasks run when time is moved forward, in the order of
their times, and those of one time in the order in which they were scheduled. A task may schedule others. -/
namespace WireCut

/-- A task with the time that it is due at. Tickets number the tasks in the order of scheduling. -/
structure Entry (α : Type) where
  due : Int
  ticket : Nat
  task : α
deriving DecidableEq

/-- A clock, the waiting tasks in the order in which they will run, and the number of tickets given out. -/
structure Agenda (α : Type) where
  now : Int
  entries : List (Entry α)
  issued : Nat
deriving DecidableEq

structure Reaction (σ α ε : Type) where
  world : σ
  posts : List (Int × α)
  failure : Option ε

structure Run (σ α ε : Type) where
  agenda : Agenda α
  world : σ
  calls : Nat
  failure : Option ε

namespace Agenda
variable {α σ ε : Type}

def empty : Agenda α := ⟨0, [], 0⟩

/-- Put an entry behind all those that are not due later. -/
def insert (e : Entry α) : List (Entry α) → List (Entry α)
  | [] => [e]
  | x :: xs => if e.due < x.due then e :: x :: xs else x :: insert e xs

def schedule (agenda : Agenda α) (delay : Int) (task : α) : Agenda α :=
  { agenda with
    entries := insert ⟨agenda.now + delay, agenda.issued, task⟩ agenda.entries
    issued := agenda.issued + 1 }

def scheduleAll (agenda : Agenda α) (posts : List (Int × α)) : Agenda α :=
  posts.foldl (fun a post => a.schedule post.1 post.2) agenda

def pending (agenda : Agenda α) : Nat :=
  agenda.entries.length

def nextDue (agenda : Agenda α) : Option Int :=
  agenda.entries.head?.map Entry.due

def fire (react : σ → Int → α → Reaction σ α ε) (allowed : Int → Bool) (run : Run σ α ε) :
    Option (Run σ α ε) :=
  match run.agenda.entries with
  | [] => none
  | e :: rest =>
    if allowed e.due then
      let reaction := react run.world e.due e.task
      let agenda := scheduleAll { run.agenda with now := e.due, entries := rest } reaction.posts
      let calls := if reaction.failure.isNone then run.calls + 1 else run.calls
      some ⟨agenda, reaction.world, calls, reaction.failure⟩
    else none

/-- Fire at most `limit` tasks, and stop when no task is allowed or one breaks off. -/
def drain (react : σ → Int → α → Reaction σ α ε) (allowed : Int → Bool) :
    Nat → Run σ α ε → Run σ α ε
  | 0, run => run
  | limit + 1, run =>
    match fire react allowed run with
    | none => run
    | some next => if next.failure.isSome then next else drain react allowed limit next

def runPending (react : σ → Int → α → Reaction σ α ε) (limit : Nat) (agenda : Agenda α) (world : σ) :
    Run σ α ε :=
  drain react (fun _ => true) limit ⟨agenda, world, 0, none⟩

/-- Move time forward and run all that is due by then. The clock stays at the time of a task that breaks
off. `budget` bounds the number of tasks, and a caller gives as many as can fall due. -/
def advance (react : σ → Int → α → Reaction σ α ε) (budget : Nat) (ms : Int) (agenda : Agenda α)
    (world : σ) : Run σ α ε :=
  let deadline := agenda.now + ms
  let run := drain react (fun due => decide (due ≤ deadline)) budget ⟨agenda, world, 0, none⟩
  if run.failure.isSome then run else { run with agenda := { run.agenda with now := deadline } }

theorem pending_schedule (agenda : Agenda α) (delay : Int) (task : α) :
    (agenda.schedule delay task).pending = agenda.pending + 1 := by
  have insert_length (e : Entry α) (xs : List (Entry α)) : (insert e xs).length = xs.length + 1 := by
    induction xs with
    | nil => rfl
    | cons x xs ih => by_cases h : e.due < x.due <;> simp [insert, h, ih]
  simp [pending, schedule, insert_length]

end Agenda

end WireCut
