import WireCut.Proofs.Number.Finite
import WireCut.Proofs.Playback.Act

/-! The interval between two commands. Under the standard settings every speed that a playback can take has
one, so no run breaks off for want of it. -/
namespace WireCut

open Float.Model UnpackedFloat

namespace Exact

theorem round_of_isFinite {v : Float} (h : v.isFinite = true) : ∃ n, (ofFloat v).round = .ok n := by
  rw [Finite.isFinite_eq] at h
  unfold ofFloat
  generalize v.toModel.unpack = u at h ⊢
  cases u with
  | infinity => cases h
  | notANumber => cases h
  | zero => exact ⟨_, rfl⟩
  | finite => exact ⟨_, rfl⟩

/-- A product that is not less than one has a significand that reaches the first place. -/
private theorem place_of_one_le {negative : Bool} {m : Nat} {e : Int} (h : (finite negative m e).lt (ofInt 1) = false) :
    negative = false ∧ m ≠ 0 ∧ 0 ≤ m.log2 + e := by
  have hcompare : ¬ scaledTo negative m e (min e 0) < scaledTo false 1 0 (min e 0) := by
    have hne : compare (scaledTo negative m e (min e 0)) (scaledTo false 1 0 (min e 0)) ≠ .lt := by
      intro hlt
      simp [lt, compare?, ofInt, hlt] at h
    rwa [ne_eq, Int.compare_eq_lt] at hne
  have hunit : scaledTo false 1 0 (min e 0) = ((2 ^ (0 - min e 0).toNat : Nat) : Int) := by
    rw [scaledTo, signed, Nat.one_shiftLeft]
    rfl
  have hpos : 0 < 2 ^ (0 - min e 0).toNat := Nat.two_pow_pos _
  rw [hunit, scaledTo, signed] at hcompare
  cases negative with
  | true =>
    rw [if_pos rfl] at hcompare
    generalize m <<< (e - min e 0).toNat = a at hcompare
    omega
  | false =>
    rw [if_neg (by decide)] at hcompare
    have hle : 2 ^ (0 - min e 0).toNat ≤ m <<< (e - min e 0).toNat := by omega
    have hm : m ≠ 0 := by
      rintro rfl
      rw [Nat.zero_shiftLeft] at hle
      omega
    refine ⟨rfl, hm, ?_⟩
    by_cases he : 0 ≤ e
    · omega
    · rw [show min e 0 = e by omega, Int.sub_self, Int.toNat_zero, Nat.shiftLeft_zero] at hle
      have := (Nat.le_log2 hm).mpr hle
      omega

end Exact

namespace Quantity

theorem thousand_unpack : (1000 : Float).toModel.unpack = .finite .positive (1000 * 2 ^ 43) (-43) (by decide) := rfl

private theorem thousand_div {w : Float} {s : Sign} {n : Nat} (hn : n ≠ 0) (h : Binary64.Stored s n 0 w.toModel.unpack) :
    ((1000 : Float) / w).isFinite = true := by
  have hlog : (1000 * 2 ^ 43).log2 = 52 := by decide
  cases hw : w.toModel.unpack with
  | notANumber => rw [hw] at h; cases h
  | zero =>
    rw [hw] at h
    cases h with
    | zero small =>
      have := small hn
      omega
  | infinity s =>
    have hdiv : ((1000 : Float) / w).isFinite = (Float.Model.pack (UnpackedFloat.div Format.binary64
        (1000 : Float).toModel.unpack w.toModel.unpack)).unpack.isFinite := rfl
    rw [hdiv, hw, thousand_unpack, UnpackedFloat.div, Binary64.unpack_pack (.zero _) trivial]
    rfl
  | finite s m e hm =>
    rw [hw] at h
    cases h with
    | finite _ _ _ _ low =>
      rw [Binary64.target] at low
      exact Finite.div_isFinite thousand_unpack hw (by omega)

/-- A thousand divided by a finite quantity that is not less than one is a finite float. -/
theorem dividing_thousand {q : Quantity} (hfinite : q.isFinite = true) (hone : q.lt (.whole 1) = false) :
    ∃ v, q.dividing 1000 = .ok v ∧ v.isFinite = true := by
  have hlog : (1000 * 2 ^ 43).log2 = 52 := by decide
  cases q with
  | truth b =>
    cases b with
    | false => cases hone
    | true => exact ⟨1000, rfl, rfl⟩
  | whole n =>
    obtain ⟨-, hne, -⟩ := Exact.place_of_one_le hone
    refine ⟨_, by rw [dividing, if_neg (fun h => hne (by rw [h]; rfl))], ?_⟩
    have hstored := Exact.stored_nearest (n < 0) n.natAbs 0
    exact thousand_div hne hstored
  | float w =>
    rw [isFinite, Finite.isFinite_eq] at hfinite
    have hexact : (Exact.ofFloat w).lt (.ofInt 1) = false := hone
    unfold Exact.ofFloat at hexact
    cases hw : w.toModel.unpack with
    | infinity => rw [hw] at hfinite; cases hfinite
    | notANumber => rw [hw] at hfinite; cases hfinite
    | zero s =>
      rw [hw] at hexact
      exact absurd rfl (Exact.place_of_one_le hexact).2.1
    | finite s m e hm =>
      rw [hw] at hexact
      obtain ⟨-, -, hplace⟩ := Exact.place_of_one_le hexact
      have hzero : (w == 0) = false := by
        have hbeq : (w == 0) = UnpackedFloat.beq w.toModel.unpack (.zero .positive) := rfl
        rw [hbeq, hw]
        cases s <;> rfl
      refine ⟨1000 / w, by rw [dividing, hzero]; rfl, ?_⟩
      exact Finite.div_isFinite thousand_unpack hw (by omega)

end Quantity

namespace Playback

def Paced (p : Playback) : Prop :=
  ∃ speed, p.speed = p.setup.accepted speed

theorem Paced.act {p : Playback} (h : p.Paced) (s : Surface) (a : Act) : (p.act s a).playback.Paced := by
  obtain ⟨old, hold⟩ := h
  rw [Paced, act_setup]
  rcases p.act_cases s a with ⟨c, -, heq⟩ | ⟨-, heq⟩ | ⟨speed, mode, generation, hspeed, heq⟩
  · exact ⟨old, by rw [heq, executeCommand_eq, settle_speed, executed_speed, hold]⟩
  · exact ⟨old, by rw [heq, reset, hold]⟩
  · rw [heq]
    rcases hspeed with rfl | ⟨given, rfl⟩
    · exact ⟨old, hold⟩
    · exact ⟨given, rfl⟩

/-- When the least speed is one command per second, no speed that a playback takes is lower. -/
theorem Paced.speed_ok {p : Playback} (h : p.Paced) (hmin : p.setup.minimumSpeed = .whole 1) :
    p.speed.isFinite = true ∧ p.speed.lt (.whole 1) = false := by
  obtain ⟨speed, hspeed⟩ := h
  have hleast : (Quantity.whole 1).isFinite = true ∧ (Quantity.whole 1).lt (.whole 1) = false := by decide
  rw [hspeed]
  cases speed with
  | none =>
    rw [Setup.accepted, hmin]
    exact hleast
  | some v =>
    rw [Setup.accepted, hmin]
    split
    · exact hleast
    · rename_i hv
      simpa using hv

/-- When the least speed is one command per second, every speed that a playback takes has an interval. -/
theorem Paced.interval_ok {p : Playback} (h : p.Paced) (hmin : p.setup.minimumSpeed = .whole 1) :
    ∃ ms, p.interval = .ok ms := by
  obtain ⟨hfinite, hone⟩ := h.speed_ok hmin
  obtain ⟨v, hv, hvfinite⟩ := Quantity.dividing_thousand hfinite hone
  obtain ⟨ms, hms⟩ := Exact.round_of_isFinite hvfinite
  refine ⟨ms, ?_⟩
  rw [interval, hv]
  exact hms

end Playback

end WireCut
