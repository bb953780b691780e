import WireCut.Proofs.Geometry.Range
import WireCut.Proofs.Machine.Motion
import WireCut.Proofs.Machine.Toolpath

/-! Programs with moderate numbers. The wire gains at most one of its numbers on each axis with each command, so a program that is
not too long stays within the range of floats: no cut is reported as out of range, and every shape fits. -/
namespace WireCut

open Float.Model UnpackedFloat Binary64

def moderate : ℚ := 2 ^ (900 : ℤ)

theorem moderate_pos : 0 < moderate := by
  rw [moderate]
  positivity

def Sized (size : ℚ) (v : Float) : Prop :=
  v.isFinite = true ∧ |toRat v| ≤ size

private theorem Sized.mono {a b : ℚ} {v : Float} (h : Sized a v) (hle : a ≤ b) : Sized b v :=
  ⟨h.1, h.2.trans hle⟩

def commandLimit : ℕ := 2 ^ 50

theorem moderate_lt_limit : 2 ^ 123 * moderate < limit := by
  have hpow : 2 ^ 123 * moderate = 2 ^ (1023 : ℤ) := by
    rw [moderate, ← zpow_natCast, ← zpow_add₀ two_ne_zero]
    rfl
  rw [hpow]
  exact pow_lt_limit le_rfl

private theorem beyond_eq_moderate : beyond = 2 ^ 124 * moderate := by
  rw [beyond, moderate, ← zpow_natCast, ← zpow_add₀ two_ne_zero]
  rfl

private theorem tiny_le_moderate : (2 : ℚ) ^ (-1075 : ℤ) ≤ moderate / 2 := by
  rw [moderate, show (900 : ℤ) = 899 + 1 by rfl, zpow_add₀ two_ne_zero, zpow_one, mul_div_cancel_right₀ _ two_ne_zero]
  exact zpow_le_zpow_right₀ one_le_two (by decide)

/-- What is rounded gains less than a moderate number in size by that. -/
private theorem Nearest.sized {x : ℚ} {v : Float} {k : ℕ} (h : Nearest x v) (hk : k ≤ commandLimit) (hx : |x| ≤ (2 * k + 1) * moderate) :
    Sized ((2 * k + 2) * moderate) v := by
  have hfew : (k : ℚ) ≤ 2 ^ 50 := by exact_mod_cast hk
  have hpos := moderate_pos
  have hscaled : k * moderate ≤ 2 ^ 50 * moderate := mul_le_mul_of_nonneg_right hfew hpos.le
  have hlimit := moderate_lt_limit
  have hfinite : v.isFinite = true := h.isFinite_iff_lt.mpr (by linarith)
  have htiny := tiny_le_moderate
  have herror := (h.abs_error hfinite).2
  exact ⟨hfinite, by linarith⟩

def Command.isModerate (scale : Float) (c : Command) : Bool :=
  ["X", "Y", "I", "J"].all fun key => (c.value? key).all fun value => (value * scale).abs ≤ 1e270

/-- What is compared with a finite number and not above it in size is finite. -/
private theorem isFinite_of_abs_le {v w : Float} (hw : w.isFinite = true) (h : v.abs ≤ w) : v.isFinite = true := by
  have habs : v.abs.toModel.unpack = fit v.toModel.unpack.abs := unpack_pack _ (rounded_unpack _).abs
  have hle : UnpackedFloat.le v.abs.toModel.unpack w.toModel.unpack = true := decide_eq_true_iff.mp h
  rw [habs] at hle
  rw [Finite.isFinite_eq] at hw ⊢
  generalize w.toModel.unpack = b at hw hle
  generalize v.toModel.unpack = a at hle ⊢
  cases a with
  | notANumber => cases hle
  | infinity s => cases b <;> first | cases hle | cases hw
  | _ => rfl

private theorem toRat_greatest : (1e270 : Float).isFinite = true ∧ toRat 1e270 ≤ moderate := by
  have hexact : Exact.ofFloat 1e270 = .finite false 8524789415648860 844 := by decide +kernel
  constructor
  · rw [Finite.isFinite_eq, Exact.unpack_of_ofFloat hexact (by decide)]
    rfl
  · rw [← Exact.value_ofFloat, hexact, Exact.value, if_neg Bool.false_ne_true, one_mul, moderate,
      show (900 : ℤ) = 56 + 844 by rfl, zpow_add₀ two_ne_zero]
    exact mul_le_mul_of_nonneg_right (by norm_num) (by positivity)

private theorem sized_of_abs_le {v : Float} (h : v.abs ≤ 1e270) : Sized moderate v := by
  obtain ⟨hgreatest, hsize⟩ := toRat_greatest
  have hfinite := isFinite_of_abs_le hgreatest h
  obtain ⟨habs, hvalue⟩ := toRat_abs hfinite
  have hle := (le_iff habs hgreatest).mp h
  rw [hvalue] at hle
  exact ⟨hfinite, hle.trans hsize⟩

namespace Machine

/-- A machine whose wire and whose origin are not far away after a number of commands. -/
structure Near (k : ℕ) (m : Machine) : Prop where
  position : Sized (2 * k * moderate) m.position.x ∧ Sized (2 * k * moderate) m.position.y
  origin : Sized (2 * k * moderate) m.origin.x ∧ Sized (2 * k * moderate) m.origin.y

variable {m : Machine} {c : Command} {k : ℕ}

private theorem coordinate_sized (m : Machine) {value? : Option Float} {position origin : Float} (hk : k ≤ commandLimit)
    (hvalue : ∀ value, value? = some value → Sized moderate value) (hposition : Sized (2 * k * moderate) position)
    (horigin : Sized (2 * k * moderate) origin) : Sized ((2 * k + 2) * moderate) (m.coordinate value? position origin) := by
  have hpos := moderate_pos
  unfold coordinate
  split
  · exact hposition.mono (by linarith)
  · rename_i value _
    obtain ⟨hfinite, hsize⟩ := hvalue value rfl
    exact (Nearest.sub hfinite horigin.1).sized hk ((abs_sub _ _).trans (by linarith [horigin.2]))
  · rename_i value _
    obtain ⟨hfinite, hsize⟩ := hvalue value rfl
    exact (Nearest.add hposition.1 hfinite).sized hk ((abs_add_le _ _).trans (by linarith [hposition.2]))

private theorem scaled_sized (hc : c.isModerate m.scale = true) {key : String} (hkey : key ∈ ["X", "Y", "I", "J"]) {value : Float}
    (h : m.scaled? c key = some value) : Sized moderate value := by
  obtain ⟨number, hnumber, rfl⟩ := Option.map_eq_some_iff.mp h
  have hnumbers := List.all_eq_true.mp hc key hkey
  rw [hnumber, Option.all_some, decide_eq_true_iff] at hnumbers
  exact sized_of_abs_le hnumbers

private theorem Near.target (h : m.Near k) (hk : k ≤ commandLimit) (hc : c.isModerate m.scale = true) :
    Sized ((2 * k + 2) * moderate) (m.target c).x ∧ Sized ((2 * k + 2) * moderate) (m.target c).y :=
  ⟨m.coordinate_sized hk (fun _ => scaled_sized hc (by decide)) h.position.1 h.origin.1,
    m.coordinate_sized hk (fun _ => scaled_sized hc (by decide)) h.position.2 h.origin.2⟩

private theorem Near.mono {j : ℕ} (h : m.Near j) (hle : j ≤ k) : m.Near k := by
  have hpos := moderate_pos
  have hsize : 2 * j * moderate ≤ 2 * k * moderate := by
    have : (j : ℚ) ≤ k := by exact_mod_cast hle
    exact mul_le_mul_of_nonneg_right (by linarith) hpos.le
  exact ⟨⟨h.position.1.mono hsize, h.position.2.mono hsize⟩, h.origin.1.mono hsize, h.origin.2.mono hsize⟩

/-- A command takes the wire at most one moderate number further, and leaves room for rounding. -/
private theorem Near.execute (h : m.Near k) (hk : k ≤ commandLimit) (hc : c.isModerate m.scale = true) :
    (m.execute c).machine.Near (k + 1) := by
  obtain ⟨hposition, horigin⟩ := h.mono k.le_succ
  have htarget := h.target hk hc
  have hwrites := m.writes_execute c
  have hstep : (2 * k + 2) * moderate = 2 * (k + 1 : ℕ) * moderate := by
    push_cast
    ring
  rw [hstep] at htarget
  constructor
  · rw [hwrites.position]
    split_ifs <;> assumption
  · rw [hwrites.origin]
    split_ifs <;> assumption

private theorem near_powerOn (scale : Float) : (powerOn scale).Near 0 := by
  have hzero : Sized (2 * (0 : ℕ) * moderate) 0 := ⟨rfl, by simp [toRat_zero]⟩
  exact ⟨⟨hzero, hzero⟩, hzero, hzero⟩

private theorem Near.replay (h : m.Near k) {cs : List Command} (hk : k + cs.length ≤ commandLimit)
    (hcs : ∀ c ∈ cs, c.isModerate m.scale = true) : (m.replay cs).Near (k + cs.length) := by
  induction cs generalizing m k with
  | nil => exact h
  | cons c cs ih =>
    rw [List.length_cons] at hk ⊢
    have hnext := h.execute (by omega) (hcs c List.mem_cons_self)
    rw [show k + (cs.length + 1) = k + 1 + cs.length by omega]
    refine ih hnext (by omega) fun d hd => ?_
    rw [execute_scale]
    exact hcs d (List.mem_cons_of_mem c hd)

end Machine

/-- Rounding does not double a number that is not small and well within the range of floats. -/
private theorem Nearest.sized_double {x size : ℚ} {v : Float} (h : Nearest x v) (hx : |x| ≤ size) (hlow : moderate ≤ size)
    (hhigh : size ≤ 2 ^ 123 * moderate) : Sized (2 * size) v := by
  have hfinite : v.isFinite = true := h.isFinite_iff_lt.mpr (hx.trans_lt (hhigh.trans_lt moderate_lt_limit))
  have herror := (h.abs_error hfinite).2
  have htiny := tiny_le_moderate
  exact ⟨hfinite, by linarith⟩

private theorem hypot_sized {x y : Float} {size : ℚ} (hx : Sized size x) (hy : Sized size y) (hlow : moderate ≤ size)
    (hhigh : size ≤ 2 ^ 120 * moderate) : Sized (6 * size) (hypot x y) := by
  have hpos := moderate_pos
  obtain ⟨root, unit, heq, ⟨hroot, hroot'⟩, ⟨hunit, hunit'⟩, hbound⟩ := hypot_factors hx.1 hy.1
  have hsquare : toRat x ^ 2 + toRat y ^ 2 ≤ (2 * size) ^ 2 := by
    have hx2 := sq_le_sq.mpr (hx.2.trans (le_abs_self size))
    have hy2 := sq_le_sq.mpr (hy.2.trans (le_abs_self size))
    linarith [sq_nonneg size]
  have hle := (hbound (2 * size) (by linarith)).1 hsquare
  have hproduct : |toRat root * toRat unit| ≤ 3 * size := by
    rw [abs_of_nonneg (mul_nonneg hroot' hunit'.le)]
    linarith
  rw [heq]
  exact ((Nearest.mul hroot hunit).sized_double hproduct (by linarith) (by linarith)).mono (by linarith)

namespace Shape

/-- A finite shape that fits, with a length that leaves room for those of many others. -/
structure Moderate (s : Shape) : Prop where
  isFinite : s.isFinite = true
  lengthFits : s.LengthFits
  cornersFit : s.CornersFit
  length : Sized (2 ^ 57 * moderate) s.length

private theorem moderate_line {start stop : Point} (hstart : Sized (2 ^ 52 * moderate) start.x ∧ Sized (2 ^ 52 * moderate) start.y)
    (hstop : Sized (2 ^ 52 * moderate) stop.x ∧ Sized (2 ^ 52 * moderate) stop.y) : (line start stop).Moderate := by
  have hpos := moderate_pos
  have hfinite : (line start stop).isFinite = true := by
    simp [Shape.isFinite, Point.isFinite, hstart.1.1, hstart.2.1, hstop.1.1, hstop.2.1]
  have hsub {v w : Float} (hv : Sized (2 ^ 52 * moderate) v) (hw : Sized (2 ^ 52 * moderate) w) :
      |toRat v - toRat w| ≤ 2 ^ 53 * moderate :=
    (abs_sub _ _).trans (by linarith [hv.2, hw.2])
  have hround {v w : Float} (hv : Sized (2 ^ 52 * moderate) v) (hw : Sized (2 ^ 52 * moderate) w) :
      Sized (2 ^ 54 * moderate) (v - w) :=
    ((Nearest.sub hv.1 hw.1).sized_double (hsub hv hw) (by linarith) (by linarith)).mono (by linarith)
  refine ⟨hfinite, ?_, trivial, ?_⟩
  · have hx := sq_le_sq.mpr ((hsub hstop.1 hstart.1).trans (le_abs_self _))
    have hy := sq_le_sq.mpr ((hsub hstop.2 hstart.2).trans (le_abs_self _))
    rw [LengthFits, Point.squareTo, beyond_eq_moderate]
    nlinarith [sq_nonneg moderate]
  · rw [Shape.isFinite] at hfinite
    rw [Shape.length, if_pos hfinite]
    exact (hypot_sized (hround hstop.1 hstart.1) (hround hstop.2 hstart.2) (by linarith) (by linarith)).mono (by linarith)

private theorem moderate_arc {a : Arc} (h : (arc a).Drawn) (hfinite : a.isFinite = true)
    (hcenter : Sized (2 ^ 52 * moderate) a.center.x ∧ Sized (2 ^ 52 * moderate) a.center.y)
    (hradius : Sized (6 * moderate) a.radius) : (arc a).Moderate := by
  have hpos := moderate_pos
  have hlimit := moderate_lt_limit
  obtain ⟨hstart, hstop⟩ := h.1.within hfinite
  have hwithin := within_sweepBetween hstart hstop a.clockwise
  have hsweep : |toRat a.sweep| < 2 ^ (6 : ℤ) := abs_toRat_lt_of_within hwithin
  have hnonneg := h.radius hfinite
  have hsize := hradius.2
  rw [abs_of_nonneg hnonneg] at hsize
  have hlength : toRat a.radius * |toRat a.sweep| ≤ 2 ^ 10 * moderate := by
    refine (mul_le_mul hsize hsweep.le (abs_nonneg _) (by positivity)).trans ?_
    norm_num
    linarith
  have hfit {v : Float} (hv : Sized (2 ^ 52 * moderate) v) : |toRat v| + toRat a.radius < limit := by
    linarith [hv.2]
  obtain ⟨habs, hvalue⟩ := toRat_abs hwithin.isFinite
  have hproduct := Nearest.mul hradius.1 habs
  rw [hvalue] at hproduct
  have hfits : (arc a).LengthFits := by
    rw [LengthFits]
    linarith
  refine ⟨hfinite, hfits, ⟨hfit hcenter.1, hfit hcenter.2⟩, ?_⟩
  rw [Shape.length, Arc.length, if_pos hfinite]
  rw [← abs_of_nonneg (mul_nonneg hnonneg (abs_nonneg (toRat a.sweep)))] at hlength
  exact (hproduct.sized_double hlength (by linarith) (by linarith)).mono (by linarith)

end Shape

namespace Machine
variable {m : Machine} {c : Command} {k : ℕ}

private theorem reach_le (hk : k ≤ commandLimit) : (2 * k + 2) * moderate ≤ 2 ^ 52 * moderate := by
  have hfew : (k : ℚ) ≤ 2 ^ 50 := by exact_mod_cast hk
  exact mul_le_mul_of_nonneg_right (by linarith) moderate_pos.le

private theorem Near.position_sized (h : m.Near k) (hk : k ≤ commandLimit) :
    Sized (2 ^ 52 * moderate) m.position.x ∧ Sized (2 ^ 52 * moderate) m.position.y := by
  have hpos := moderate_pos
  have hreach := reach_le hk
  exact ⟨h.position.1.mono (by linarith), h.position.2.mono (by linarith)⟩

private theorem Near.target_sized (h : m.Near k) (hk : k ≤ commandLimit) (hc : c.isModerate m.scale = true) :
    Sized (2 ^ 52 * moderate) (m.target c).x ∧ Sized (2 ^ 52 * moderate) (m.target c).y :=
  ⟨(h.target hk hc).1.mono (reach_le hk), (h.target hk hc).2.mono (reach_le hk)⟩

private theorem offset_sized (hc : c.isModerate m.scale = true) {key : String} (hkey : key ∈ ["X", "Y", "I", "J"]) :
    Sized moderate ((m.scaled? c key).getD 0) := by
  cases h : m.scaled? c key with
  | none => exact ⟨rfl, by simpa [toRat_zero] using moderate_pos.le⟩
  | some value => exact scaled_sized hc hkey h

private theorem Near.arcOf (h : m.Near k) (hk : k ≤ commandLimit) (hc : c.isModerate m.scale = true) (clockwise : Bool) :
    (Shape.arc (m.arcOf c clockwise)).Moderate := by
  have hpos := moderate_pos
  have hi : Sized moderate ((m.scaled? c "I").getD 0) := offset_sized hc (by decide)
  have hj : Sized moderate ((m.scaled? c "J").getD 0) := offset_sized hc (by decide)
  have hcenter {v w : Float} (hv : Sized (2 * k * moderate) v) (hw : Sized moderate w) :
      Sized (2 ^ 52 * moderate) (v + w) :=
    ((Nearest.add hv.1 hw.1).sized hk ((abs_add_le _ _).trans (by linarith [hv.2, hw.2]))).mono (reach_le hk)
  have hx : Sized (2 ^ 52 * moderate) (m.arcOf c clockwise).center.x := hcenter h.position.1 hi
  have hy : Sized (2 ^ 52 * moderate) (m.arcOf c clockwise).center.y := hcenter h.position.2 hj
  have hradius : Sized (6 * moderate) (m.arcOf c clockwise).radius := hypot_sized hi hj le_rfl (by linarith)
  obtain ⟨htarget, htarget'⟩ := h.target hk hc
  refine Shape.moderate_arc ⟨⟨⟨_, _, rfl⟩, _, _, rfl⟩, _, _, rfl⟩ ?_ ⟨hx, hy⟩ hradius
  rw [arcOf_isFinite, Point.isFinite, hx.1, hy.1, hradius.1, Finite.isNaN_of_isFinite htarget.1,
    Finite.isNaN_of_isFinite htarget'.1]
  rfl

/-- A moderate command of a machine that is not far away draws a moderate shape, if it draws one, and reports no cut. -/
private theorem Near.execute_moderate (h : m.Near k) (hk : k ≤ commandLimit) (hc : c.isModerate m.scale = true) :
    (∀ r shape, (m.execute c).request = some r → r.shape? = some shape → shape.Moderate) ∧
      ∀ d, (m.execute c).report = some d → d.kind ≠ .motion := by
  have hposition := h.position_sized hk
  have htarget := h.target_sized hk hc
  have hline := Shape.moderate_line hposition htarget
  have harc := h.arcOf hk hc
  have hends : m.position.isFinite = true ∧ (m.target c).isFinite = true :=
    Bool.and_eq_true_iff.mp hline.isFinite
  unfold Machine.execute
  cases hi : Instruction.ofCode? c.code with
  | none =>
    refine ⟨?_, ?_⟩
    · rintro r shape ⟨⟩
    · rintro d ⟨⟩ ⟨⟩
  | some instruction =>
    cases instruction with
    | cut =>
      refine ⟨?_, ?_⟩
      · rintro r shape ⟨⟩ ⟨⟩
        exact hline
      · simp [perform, Request.isFinite, hends.1, hends.2]
    | arc clockwise =>
      refine ⟨?_, ?_⟩
      · rintro r shape ⟨⟩ ⟨⟩
        exact harc clockwise
      · have hfinite : (m.arcOf c clockwise).isFinite = true := (harc clockwise).isFinite
        simp [perform, Request.isFinite, hends.1, hends.2, hfinite]
    | _ =>
      -- no other instruction draws, or can be out of range
      refine ⟨?_, ?_⟩
      · rintro r shape ⟨⟩ ⟨⟩
      · rintro d ⟨⟩

/-- A program of few moderate commands reports no cut as out of range, and draws moderate shapes only. -/
theorem moderate_program {scale : Float} {cs : List Command} (hlength : cs.length ≤ commandLimit)
    (hcs : ∀ c ∈ cs, c.isModerate scale = true) (pen : Pen) : (∀ d ∈ (powerOn scale).reportsOf cs, d.kind ≠ .motion) ∧
      ∀ stroke ∈ (powerOn scale).strokesOf pen cs, stroke.shape.Moderate := by
  have hexecute (j : ℕ) (c : Command) (hc : cs[j]? = some c) := by
    have htake : (cs.take j).length ≤ commandLimit := (List.length_take_le' _ _).trans hlength
    have hbefore : ∀ d ∈ cs.take j, d.isModerate scale = true := fun d hd => hcs d (List.mem_of_mem_take hd)
    have hnear := (near_powerOn scale).replay (by omega) hbefore
    exact hnear.execute_moderate (by omega) (by rw [replay_scale]; exact hcs c (List.mem_of_getElem? hc))
  constructor
  · intro d hd
    rw [reportsOf, List.mem_filterMap] at hd
    obtain ⟨done, hdone, hreport⟩ := hd
    obtain ⟨j, hj⟩ := List.mem_iff_getElem?.mp hdone
    rw [getElem?_executeAll] at hj
    obtain ⟨c, hc, rfl⟩ := Option.map_eq_some_iff.mp hj
    exact (hexecute j c hc).2 d hreport
  · intro stroke hstroke
    obtain ⟨j, c, hc, hstroke⟩ := mem_strokesOf.mp hstroke
    obtain ⟨r, hr, hmap⟩ := Option.bind_eq_some_iff.mp hstroke
    obtain ⟨shape, hshape, rfl⟩ := Option.map_eq_some_iff.mp hmap
    exact (hexecute j c hc).1 r shape hr hshape

end Machine

end WireCut
