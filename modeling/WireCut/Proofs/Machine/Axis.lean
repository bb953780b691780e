import WireCut.Proofs.Machine.Toolpath

/-! The axes of the drawing plane. What the machine does on one axis depends on the codes and on the parameters of
that axis alone, in both distance modes and across changes of the origin. The offset of the center of an arc moves
nothing, and the target of an arc has no part in its circle. -/
namespace WireCut

inductive Axis where
  | x
  | y
deriving DecidableEq

def Axis.key : Axis → String
  | x => "X"
  | y => "Y"

def Point.along (p : Point) : Axis → Float
  | .x => p.x
  | .y => p.y

def Feed.along (feed : Feed) (axis : Axis) : Float × Float :=
  (feed.start.along axis, feed.stop.along axis)

private theorem Point.ext_along {p q : Point} (h : ∀ axis, p.along axis = q.along axis) : p = q := by
  obtain ⟨x, y⟩ := p
  obtain ⟨x', y'⟩ := q
  obtain rfl : x = x' := h .x
  obtain rfl : y = y' := h .y
  rfl

/-- Feeds that agree on both axes, command by command, are the same. -/
private theorem Feed.ext_along {fs gs : List (Option Feed)}
    (h : ∀ axis, fs.map (·.map (·.along axis)) = gs.map (·.map (·.along axis))) : fs = gs := by
  have hfeed {f g : Option Feed} (h : ∀ axis, f.map (·.along axis) = g.map (·.along axis)) : f = g := by
    rcases f with _ | ⟨start, stop⟩ <;> rcases g with _ | ⟨start', stop'⟩
    · rfl
    · cases h .x
    · cases h .x
    · obtain rfl : start = start' := Point.ext_along fun axis => (Prod.ext_iff.mp (Option.some.inj (h axis))).1
      obtain rfl : stop = stop' := Point.ext_along fun axis => (Prod.ext_iff.mp (Option.some.inj (h axis))).2
      rfl
  induction fs generalizing gs with
  | nil => exact (List.map_eq_nil_iff.mp (h .x).symm).symm
  | cons f fs ih =>
    cases gs with
    | nil => cases h .x
    | cons g gs =>
      simp only [List.map_cons, List.cons.injEq] at h
      rw [hfeed fun axis => (h axis).1, ih fun axis => (h axis).2]

namespace Machine

structure AlikeAlong (axis : Axis) (m m' : Machine) : Prop where
  position : m.position.along axis = m'.position.along axis
  previous : m.previous.along axis = m'.previous.along axis
  origin : m.origin.along axis = m'.origin.along axis
  mode : m.mode = m'.mode
  scale : m.scale = m'.scale

private theorem AlikeAlong.refl (axis : Axis) (m : Machine) : m.AlikeAlong axis m :=
  ⟨rfl, rfl, rfl, rfl, rfl⟩

/-- The target of a move on an axis is read from the parameter of that axis. -/
private theorem target_along (m : Machine) (c : Command) (axis : Axis) :
    (m.target c).along axis =
      m.coordinate (m.scaled? c axis.key) (m.position.along axis) (m.origin.along axis) := by
  cases axis <;> rfl

section
variable {axis : Axis} {m m' : Machine} {c d : Command}

private theorem AlikeAlong.target (h : m.AlikeAlong axis m') (hvalue : c.value? axis.key = d.value? axis.key) :
    (m.target c).along axis = (m'.target d).along axis := by
  rw [target_along, target_along, scaled?, scaled?, hvalue, h.scale, h.position, h.origin]
  unfold coordinate
  rw [h.mode]

/-- Commands with one code and one value on an axis keep machines alike along that axis, and their feeds agree on it. -/
private theorem AlikeAlong.execute (h : m.AlikeAlong axis m') (hcode : c.code = d.code)
    (hvalue : c.value? axis.key = d.value? axis.key) :
    (m.execute c).machine.AlikeAlong axis (m'.execute d).machine ∧
      (m.execute c).feed?.map (·.along axis) = (m'.execute d).feed?.map (·.along axis) := by
  have hw := m.writes_execute c
  have hw' := m'.writes_execute d
  have hcut : c.isCut = d.isCut := by rw [Command.isCut, Command.isCut, hcode]
  have horigin : c.setsOrigin = d.setsOrigin := by rw [Command.setsOrigin, Command.setsOrigin, hcode]
  have hmode : c.mode? = d.mode? := by rw [Command.mode?, Command.mode?, hcode]
  have htarget := h.target hvalue
  refine ⟨⟨?_, ?_, ?_, ?_, ?_⟩, ?_⟩
  · rw [hw.position, hw'.position, hcut, apply_ite (Point.along · axis), apply_ite (Point.along · axis), htarget,
      h.position]
  · rw [hw.previous, hw'.previous, hcut, apply_ite (Point.along · axis), apply_ite (Point.along · axis), h.position,
      h.previous]
  · rw [hw.origin, hw'.origin, horigin, apply_ite (Point.along · axis), apply_ite (Point.along · axis), h.position,
      h.origin]
  · rw [hw.mode, hw'.mode, hmode, h.mode]
  · rw [execute_scale, execute_scale, h.scale]
  · rw [hw.feed, hw'.feed, hcut]
    cases d.isCut with
    | false => rfl
    | true => exact congrArg some (Prod.ext h.position htarget)

end

/-- Programs with the same codes and the same values on an axis keep machines alike along that axis, and their feeds
agree on it command by command. -/
private theorem AlikeAlong.replay {axis : Axis} {m m' : Machine} (h : m.AlikeAlong axis m') {cs ds : List Command}
    (hcodes : cs.map Command.code = ds.map Command.code)
    (hvalues : cs.map (·.value? axis.key) = ds.map (·.value? axis.key)) :
    (m.replay cs).AlikeAlong axis (m'.replay ds) ∧
      (m.executeAll cs).map (·.feed?.map (·.along axis)) = (m'.executeAll ds).map (·.feed?.map (·.along axis)) := by
  induction cs generalizing ds m m' with
  | nil =>
    obtain rfl : ds = [] := List.map_eq_nil_iff.mp hcodes.symm
    exact ⟨h, rfl⟩
  | cons c cs ih =>
    cases ds with
    | nil => cases hcodes
    | cons d ds =>
      rw [List.map_cons, List.map_cons, List.cons.injEq] at hcodes hvalues
      obtain ⟨hmachine, hfeed⟩ := h.execute hcodes.1 hvalues.1
      obtain ⟨hreached, hfeeds⟩ := ih hmachine hcodes.2 hvalues.2
      refine ⟨hreached, ?_⟩
      rw [executeAll, executeAll, List.map_cons, List.map_cons, hfeed, hfeeds]

def circleOf (start : Point) (scale : Float) (i j : Option Float) : Point × Float × Float :=
  let i := (i.map (· * scale)).getD 0
  let j := (j.map (· * scale)).getD 0
  (⟨start.x + i, start.y + j⟩, hypot i j, atan2 (start.y - (start.y + j)) (start.x - (start.x + i)))

/-- An arc takes its circle and the angle of its start from its start and from its offset. -/
private theorem arc_of_start {m : Machine} {c : Command} {line : Int} {start stop : Point} {a : Arc}
    (h : (m.execute c).request = some (.arc line start stop a)) :
    (a.center, a.radius, a.startAngle) = circleOf start m.scale (c.value? "I") (c.value? "J") := by
  unfold execute at h
  cases hi : Instruction.ofCode? c.code with
  | none =>
    rw [hi] at h
    cases h
  | some i =>
    rw [hi] at h
    cases i <;> cases h
    rfl

/-- The axes do not interfere. Of two programs with the same codes and the same parameters on one axis, each prefix
leaves the wire, its last position and the origin at the same coordinate of that axis, and sends the wire between the
same coordinates, whatever all other parameters are. So the offsets of arcs move nothing: with the same parameters on
both axes all positions are the same. The circle of an arc and the angle at which it starts follow from its start and
from its own offset, whatever its target, its direction and the other registers of the machine are. -/
theorem axes_apart (scale : Float) (cs ds : List Command) (codes : cs.map Command.code = ds.map Command.code) :
    (∀ axis : Axis, cs.map (·.value? axis.key) = ds.map (·.value? axis.key) → ∀ n,
      let m := (powerOn scale).replay (cs.take n)
      let m' := (powerOn scale).replay (ds.take n)
      m.position.along axis = m'.position.along axis ∧ m.previous.along axis = m'.previous.along axis ∧
        m.origin.along axis = m'.origin.along axis ∧
        ((powerOn scale).executeAll (cs.take n)).map (·.feed?.map (·.along axis)) =
          ((powerOn scale).executeAll (ds.take n)).map (·.feed?.map (·.along axis))) ∧
    ((∀ axis : Axis, cs.map (·.value? axis.key) = ds.map (·.value? axis.key)) → ∀ n,
      let m := (powerOn scale).replay (cs.take n)
      let m' := (powerOn scale).replay (ds.take n)
      m.position = m'.position ∧ m.previous = m'.previous ∧ m.origin = m'.origin ∧
        ((powerOn scale).executeAll (cs.take n)).map Executed.feed? =
          ((powerOn scale).executeAll (ds.take n)).map Executed.feed?) ∧
    ∀ (m m' : Machine) (c d : Command) (line line' : Int) (start stop stop' : Point) (a a' : Arc),
      m.scale = m'.scale → c.value? "I" = d.value? "I" → c.value? "J" = d.value? "J" →
      (m.execute c).request = some (.arc line start stop a) →
      (m'.execute d).request = some (.arc line' start stop' a') →
      a.center = a'.center ∧ a.radius = a'.radius ∧ a.startAngle = a'.startAngle := by
  have halike (axis : Axis) (hvalues : cs.map (·.value? axis.key) = ds.map (·.value? axis.key)) (n : Nat) :=
    (AlikeAlong.refl axis (powerOn scale)).replay
      (show (cs.take n).map Command.code = (ds.take n).map Command.code by rw [List.map_take, List.map_take, codes])
      (by rw [List.map_take, List.map_take, hvalues])
  refine ⟨fun axis hvalues n => ?_, fun hvalues n => ?_, ?_⟩
  · obtain ⟨hreached, hfeeds⟩ := halike axis hvalues n
    exact ⟨hreached.position, hreached.previous, hreached.origin, hfeeds⟩
  · have hreached (axis : Axis) := (halike axis (hvalues axis) n).1
    have hfeeds (axis : Axis) := (halike axis (hvalues axis) n).2
    refine ⟨Point.ext_along fun axis => (hreached axis).position, Point.ext_along fun axis => (hreached axis).previous,
      Point.ext_along fun axis => (hreached axis).origin, Feed.ext_along fun axis => ?_⟩
    rw [List.map_map, List.map_map]
    exact hfeeds axis
  · intro m m' c d line line' start stop stop' a a' hscale hi hj harc harc'
    have hcircle := arc_of_start harc
    rw [hscale, hi, hj, ← arc_of_start harc'] at hcircle
    simpa only [Prod.mk.injEq] using hcircle

/-- Two programs that agree on the first axis, in both distance modes and with an offset that is not a number, and two
arcs with one start and one offset. -/
theorem axes_apart_modes :
    let cs := Program.commands "G01 X1 Y2\nG92\nG91\nG02 X3 I1\nG90\nG03 X-1 Y1e999 J4\nG01 Y7"
    let ds := Program.commands "G01 X1 YQ\nG92 Y9\nG91\nG02 X3 Y5 I1e999\nG90\nG03 X-1 I2 JQ\nG01"
    let m := powerOn 2
    let m' : Machine := ⟨.origin, ⟨5, 6⟩, ⟨7, 8⟩, .relative, 2, 4⟩
    let c : Command := ⟨"", "G02", [("I", 1), ("J", 2), ("X", 3)], 0⟩
    let d : Command := ⟨"", "G03", [("Y", 5), ("J", 2), ("I", 1)], 1⟩
    cs.map Command.code = ds.map Command.code ∧
      cs.map (·.value? Axis.x.key) = ds.map (·.value? Axis.x.key) ∧
      cs.map (·.value? Axis.y.key) ≠ ds.map (·.value? Axis.y.key) ∧
      (∀ n, ((powerOn 2).replay (cs.take n)).position.x = ((powerOn 2).replay (ds.take n)).position.x) ∧
      ((powerOn 2).replay cs).position.x = -4 ∧
      (m.arcOf c true).center = (m'.arcOf d false).center ∧ (m.arcOf c true).radius = (m'.arcOf d false).radius ∧
      (m.arcOf c true).startAngle = (m'.arcOf d false).startAngle ∧
      (m.arcOf c true).endAngle ≠ (m'.arcOf d false).endAngle := by
  intro cs ds m m' c d
  have hcodes : cs.map Command.code = ds.map Command.code := by decide +kernel
  have hvalues : cs.map (·.value? Axis.x.key) = ds.map (·.value? Axis.x.key) := by decide +kernel
  obtain ⟨haxis, -, harc⟩ := axes_apart 2 cs ds hcodes
  obtain ⟨hcenter, hradius, hangle⟩ := harc m m' c d 0 1 .origin (m.target c) (m'.target d) (m.arcOf c true)
    (m'.arcOf d false) rfl (by decide +kernel) (by decide +kernel) rfl rfl
  exact ⟨hcodes, hvalues, by decide +kernel, fun n => (haxis .x hvalues n).1, by decide +kernel, hcenter, hradius, hangle,
    by decide +kernel⟩

end Machine

end WireCut
