import WireCut.Playback.Basic
import WireCut.Proofs.Number.Nearest

/-! The rhythm of commands that follow one another by the interval of a speed. -/
namespace WireCut

/-- The interval of a speed in commands per second: the integer nearest to a thousand divided by the speed, and of two
that are equally near the even one. -/
def Quantity.Interval (speed : Quantity) (ms : Int) : Prop :=
  ∃ v, speed.dividing 1000 = .ok v ∧ (Exact.ofFloat v).NearestInteger ms

private theorem Quantity.Interval.unique {speed : Quantity} {a b : Int} (ha : speed.Interval a) (hb : speed.Interval b) :
    a = b := by
  obtain ⟨v, hv, hnear⟩ := ha
  obtain ⟨w, hw, hnear'⟩ := hb
  rw [hv] at hw
  cases hw
  exact hnear.unique hnear'

theorem Playback.interval_eq_ok {p : Playback} {ms : Int} : p.interval = .ok ms ↔ p.speed.Interval ms := by
  rw [interval, Quantity.Interval]
  cases p.speed.dividing 1000 with
  | error reason => exact iff_of_false nofun fun ⟨_, hv, _⟩ => nomatch hv
  | ok v =>
    refine Exact.round_eq_ok.trans ⟨fun h => ⟨v, rfl, h⟩, ?_⟩
    rintro ⟨w, hw, h⟩
    cases hw
    exact h

structure Beat where
  time : Int
  place : Nat
  speed : Quantity
deriving DecidableEq

/-- Commands from one place and time on up to another place and a time at which the next one is due. Each command is
executed when it is due, and the next one is due after the interval of the speed at which it was executed. -/
inductive Rhythm : Int → Nat → List Beat → Int → Nat → Prop where
  | rest {due : Int} {place : Nat} : Rhythm due place [] due place
  | beat {due ms next : Int} {place last : Nat} {speed : Quantity} {beats : List Beat} :
      speed.Interval ms → Rhythm (due + ms) (place + 1) beats next last →
      Rhythm due place (⟨due, place, speed⟩ :: beats) next last

namespace Rhythm
variable {due next later : Int} {place last farther : Nat} {beats others : List Beat}

theorem append (h : Rhythm due place beats next last) (h' : Rhythm next last others later farther) :
    Rhythm due place (beats ++ others) later farther := by
  induction h with
  | rest => exact h'
  | beat interval _ ih => exact .beat interval (ih h')

theorem length_eq (h : Rhythm due place beats next last) : last = place + beats.length := by
  induction h with
  | rest => rfl
  | beat _ _ ih => rw [ih, List.length_cons, Nat.add_right_comm, Nat.add_assoc]

/-- At one speed the commands are one interval apart. -/
private theorem steady (h : Rhythm due place beats next last) {ms : Int} (interval : ∀ beat ∈ beats, beat.speed.Interval ms) :
    next = due + beats.length * ms ∧ ∀ beat ∈ beats.getLast?, beat.time + ms = next := by
  induction h with
  | rest => exact ⟨by simp, nofun⟩
  | beat hfirst hlater ih =>
    rename_i due each next place last speed beats
    obtain rfl : each = ms := hfirst.unique (interval _ List.mem_cons_self)
    obtain ⟨hnext, hlast⟩ := ih fun beat hbeat => interval beat (List.mem_cons_of_mem _ hbeat)
    refine ⟨?_, ?_⟩
    · rw [hnext, List.length_cons, Int.natCast_add, Int.add_mul, Int.natCast_one, Int.one_mul]
      omega
    · cases beats with
      | nil =>
        cases hlater
        intro beat hbeat
        cases hbeat
        rfl
      | cons second beats =>
        rw [List.getLast?_cons_cons]
        exact hlast

/-- Where commands are one interval apart, the time that has passed tells the place. -/
theorem place_eq (h : Rhythm due place beats next last) {ms passed : Int} (interval : ∀ beat ∈ beats, beat.speed.Interval ms)
    (hms : 0 < ms) (hpassed : 0 ≤ passed) (past : ∀ beat ∈ beats, beat.time ≤ due + passed) {halt : Nat}
    (hplace : place < halt) (hlast : last < halt ∧ due + passed < next ∨ last = halt) :
    last = min halt (place + 1 + (passed / ms).toNat) := by
  obtain ⟨hnext, hfinal⟩ := h.steady interval
  have hlength := h.length_eq
  have hsome : beats ≠ [] := by
    rintro rfl
    cases h
    omega
  have hbefore : (beats.length - 1 : Int) * ms ≤ passed := by
    have hmem := List.getLast?_eq_some_getLast hsome
    have htime := hfinal _ hmem
    have := past _ (List.getLast_mem hsome)
    rw [Int.sub_mul, Int.one_mul]
    omega
  have hge : (beats.length - 1 : Int) ≤ passed / ms := (Int.le_ediv_iff_mul_le hms).mpr hbefore
  have hpos := List.length_pos_iff.mpr hsome
  obtain ⟨hlt, hahead⟩ | hend := hlast
  · have hle : passed / ms < beats.length := (Int.ediv_lt_iff_lt_mul hms).mpr (by omega)
    generalize passed / ms = n at hge hle
    omega
  · generalize passed / ms = n at hge
    omega

end Rhythm

end WireCut
