import WireCut.CommandLine.Launch
import WireCut.CommandLine.Report
import WireCut.Proofs.Bench.Sound

/-! Events that may break off. On a surface with a center only a speed beyond all floats breaks an event off. Such an event
changes nothing, except that it stops the session that it was to replace, so whatever is reached in this way is reached by
events that are done. The start of the program looks at its settings, and none of its events breaks off. -/
namespace WireCut

/-- Whether an event leaves the surface with a center: the size that it gives, if it gives one, has halves. -/
def Event.keepsCenter : Event → Bool
  | .view (.resize width height) => width.halves && height.halves
  | _ => true

/-- What is done of an event. -/
def Event.done : Event → List Event
  | .setSpeed index (some speed) => if speed.fits then [.setSpeed index (some speed)] else []
  | .replace old text (some speed) scale =>
    if speed.fits then [.replace old text (some speed) scale] else old.toList.map .pause
  | e => [e]

namespace Bench
variable {b : Bench} {e : Event}

def attempts (b : Bench) (events : List Event) : Bench :=
  events.foldl (fun b e => (b.attempt e).1) b

private theorem hasCenter_perform (hcenter : b.desk.surface.hasCenter = true) (h : e.keepsCenter = true) :
    (b.perform e).1.desk.surface.hasCenter = true := by
  cases hresizes : e.resizes with
  | false => exact (Surface.hasCenter_congr (b.size_perform hresizes)).trans hcenter
  | true =>
    cases e with
    | view change =>
      cases change with
      | resize width height => exact h
      | _ => cases hresizes
    | _ => cases hresizes

private theorem hasCenter_after (hcenter : b.desk.surface.hasCenter = true) {events : List Event}
    (h : ∀ e ∈ events, e.keepsCenter = true) : (b.after events).desk.surface.hasCenter = true := by
  induction events generalizing b with
  | nil => exact hcenter
  | cons e events ih =>
    exact ih (hasCenter_perform hcenter (h e List.mem_cons_self)) fun e he => h e (List.mem_cons_of_mem _ he)

private theorem attempt_of_none (h : b.refusal? e = none) : b.attempt e = b.perform e := by
  rw [attempt, h]

private theorem attempt_of_some {desk : Desk} {reason : ArithmeticError} (h : b.refusal? e = some (desk, reason)) :
    b.attempt e = ({ b with desk }, .failed reason) := by
  rw [attempt, h]

/-- An event is done as it is, unless its speed is beyond all floats. -/
private theorem done_cases (e : Event) :
    e.done = [e] ∨
    (∃ index speed, e = .setSpeed index (some speed) ∧ speed.fits = false ∧ e.done = []) ∨
    ∃ old text speed scale, e = .replace old text (some speed) scale ∧ speed.fits = false ∧
      e.done = old.toList.map .pause := by
  unfold Event.done
  split
  case h_1 index speed =>
    cases hfits : speed.fits with
    | true => exact .inl rfl
    | false => exact .inr (.inl ⟨index, speed, rfl, hfits, rfl⟩)
  case h_2 old text speed scale =>
    cases hfits : speed.fits with
    | true => exact .inl rfl
    | false => exact .inr (.inr ⟨old, text, speed, scale, rfl, hfits, rfl⟩)
  case h_3 => exact .inl rfl

private theorem keepsCenter_of_mem_done (h : e.keepsCenter = true) {other : Event} (hother : other ∈ e.done) :
    other.keepsCenter = true := by
  obtain hdone | ⟨_, _, -, -, hdone⟩ | ⟨_, _, _, _, -, -, hdone⟩ := done_cases e <;> rw [hdone] at hother
  · exact List.mem_singleton.mp hother ▸ h
  · cases hother
  · obtain ⟨index, -, rfl⟩ := List.mem_map.mp hother
    rfl

private theorem fits_of_done_setSpeed {index : Nat} {speed : Quantity}
    (h : (Event.setSpeed index (some speed)).done = [.setSpeed index (some speed)]) : speed.fits = true := by
  by_contra hfits
  simp [Event.done, hfits] at h

private theorem fits_of_done_replace {old : Option Nat} {text : String} {speed : Quantity} {scale : Float}
    (h : (Event.replace old text (some speed) scale).done = [.replace old text (some speed) scale]) :
    speed.fits = true := by
  by_contra hfits
  cases old <;> simp [Event.done, hfits] at h

/-- On a surface with a center an event breaks off only for its speed. -/
private theorem refusal?_of_done (hcenter : b.desk.surface.hasCenter = true) (h : e.keepsCenter = true)
    (hdone : e.done = [e]) : b.refusal? e = none := by
  cases e with
  | setSpeed index speed =>
    cases speed with
    | none => rfl
    | some speed => simp [refusal?, fits_of_done_setSpeed hdone]
  | replace old text speed scale =>
    cases speed with
    | none => simp [refusal?, hcenter]
    | some speed => simp [refusal?, hcenter, fits_of_done_replace hdone]
  | reset index => simp [refusal?, hcenter]
  | view change =>
    cases change with
    | resize width height =>
      have hsized : (b.desk.surface.setSize width height).hasCenter = true := h
      simp [refusal?, hsized]
    | center => simp [refusal?, hcenter]
    | _ => rfl
  | _ => rfl

private theorem attempt_setSpeed {index : Nat} {speed : Quantity} (hfits : speed.fits = false) :
    (b.attempt (.setSpeed index (some speed))).1 = b := by
  cases hfound : b.desk.sessions[index]? with
  | none => rw [attempt_of_none (by simp [refusal?, hfound]), perform, Desk.update_of_none _ hfound]
  | some session =>
    have hrefused : b.refusal? (.setSpeed index (some speed)) = some (b.desk, .tooLarge) := by
      simp [refusal?, hfound, hfits]
    rw [attempt_of_some hrefused]

private theorem attempt_replace {old : Option Nat} {text : String} {speed : Quantity} {scale : Float}
    (hfits : speed.fits = false) :
    (b.attempt (.replace old text (some speed) scale)).1 = b.after (old.toList.map .pause) := by
  have hrefused : b.refusal? (.replace old text (some speed) scale) = some (b.desk.stop old, .tooLarge) := by
    simp [refusal?, hfits]
  rw [attempt_of_some hrefused]
  cases old <;> rfl

private theorem attempt_eq_after (hcenter : b.desk.surface.hasCenter = true) (h : e.keepsCenter = true) :
    (b.attempt e).1 = b.after e.done := by
  obtain hdone | ⟨index, speed, rfl, hfits, hdone⟩ | ⟨old, text, speed, scale, rfl, hfits, hdone⟩ := done_cases e <;>
    rw [hdone]
  · rw [attempt_of_none (refusal?_of_done hcenter h hdone)]
    rfl
  · exact attempt_setSpeed hfits
  · exact attempt_replace hfits

/-- What a bench comes to by events that may break off, it comes to by what is done of them. -/
theorem attempts_eq_after (hcenter : b.desk.surface.hasCenter = true) {events : List Event}
    (h : ∀ e ∈ events, e.keepsCenter = true) : b.attempts events = b.after (events.flatMap Event.done) := by
  induction events generalizing b with
  | nil => rfl
  | cons e events ih =>
    have he := h e List.mem_cons_self
    have heq := attempt_eq_after hcenter he
    have hnext : (b.attempt e).1.desk.surface.hasCenter = true := by
      rw [heq]
      exact hasCenter_after hcenter fun other hother => keepsCenter_of_mem_done he hother
    rw [List.flatMap_cons, after_append, ← heq]
    exact ih hnext fun other hother => h other (List.mem_cons_of_mem e hother)

example :
    let b := start ⟨.whole 1, 1.5, false⟩ (.ofSize (.whole 800) (.whole 600)) "G90" none 1
    b.attempt (.setSpeed 0 (some (.whole (10 ^ 400)))) = (b, .failed .tooLarge) := by
  decide +kernel

/-- The start of a bench is the first event of one without sessions. -/
theorem start_eq_attempt {setup : Setup} {surface : Surface} (hcenter : surface.hasCenter = true) (text : String)
    {speed : Option Quantity} (hfits : ∀ v ∈ speed, v.fits = true) (scale : Float) :
    (ofSurface setup surface).attempt (.replace none text speed scale) = (start setup surface text speed scale, .nothing) := by
  have hdone : (Event.replace none text speed scale).done = [.replace none text speed scale] := by
    cases speed with
    | none => rfl
    | some v => simp [Event.done, hfits v rfl]
  rw [attempt_of_none (refusal?_of_done (e := .replace none text speed scale) hcenter rfl hdone)]
  rfl

end Bench

namespace Profile
variable {p : Profile}

private theorem fits_of_realFault {fault : JsonKind → SettingFault} {value : Json} (h : realFault? fault value = none) :
    ∃ q, value.quantity? = some q ∧ q.fits = true := by
  rw [realFault?] at h
  cases hq : value.quantity? with
  | none =>
    rw [hq] at h
    cases h
  | some q =>
    rw [hq] at h
    dsimp only at h
    split_ifs at h with hfits
    exact ⟨q, rfl, hfits⟩

private theorem fits_of_speedFault {speed : Json} (h : speedFault? speed = none) : ∀ v ∈ speed.quantity?, v.fits = true := by
  intro v hv
  rw [speedFault?] at h
  split_ifs at h with hnull
  · cases speed with
    | null => cases hv
    | _ => cases hnull
  · obtain ⟨q, hq, hfits⟩ := fits_of_realFault h
    obtain rfl := Option.some.inj (hq.symm.trans hv)
    exact hfits

private theorem halves_of_sizeFault {size : Json} (h : sizeFault? size = none) :
    ∃ q, size.quantity? = some q ∧ q.halves = true := by
  rw [sizeFault?] at h
  cases hq : size.quantity? with
  | none =>
    rw [hq] at h
    cases h
  | some q =>
    rw [hq] at h
    dsimp only at h
    split_ifs at h with hhalves
    exact ⟨q, rfl, hhalves⟩

/-- A profile without a fault for a session has a speed within the range of floats and a surface with a center. -/
private theorem usable_of_sessionFault (h : p.sessionFault? = none) :
    (∀ v ∈ (Settings.ofProfile p).speed, v.fits = true) ∧ (Settings.ofProfile p).surface.hasCenter = true := by
  simp only [sessionFault?, drawingFault?, List.findSome?_eq_none_iff, List.forall_mem_cons, id] at h
  obtain ⟨-, hspeed, ⟨hwidth, hheight, -⟩, -⟩ := h
  obtain ⟨width, hw, hhalf⟩ := halves_of_sizeFault hwidth
  obtain ⟨height, hh, hhalf'⟩ := halves_of_sizeFault hheight
  refine ⟨fits_of_speedFault hspeed, ?_⟩
  change (((p .canvasWidth).quantity?.orElse fun _ => (Profile.default .canvasWidth).quantity?).getD (.whole 0)).halves &&
    (((p .canvasHeight).quantity?.orElse fun _ => (Profile.default .canvasHeight).quantity?).getD (.whole 0)).halves
  rw [hw, hh]
  exact Bool.and_eq_true_iff.mpr ⟨hhalf, hhalf'⟩

end Profile

/-- The settings of a command line that starts the program are those of a profile without a fault. -/
private theorem Options.settings_of_launch {o : Options} {read : String → FileContent} {settings : Settings}
    {text : Option String} (h : o.launch read = .ok (settings, text)) :
    ∃ p, o.fault? p = none ∧ settings = .ofProfile p := by
  unfold launch at h
  split_ifs at h with hlevel
  · cases h
  · simp only [bind, Except.bind, pure, Except.pure] at h
    cases hprofile : o.profile read with
    | error reason =>
      rw [hprofile] at h
      cases h
    | ok p =>
      cases htext : o.programText read with
      | error reason =>
        rw [hprofile, htext] at h
        cases h
      | ok found =>
        rw [hprofile, htext] at h
        dsimp only at h
        cases hfault : o.fault? (o.override p) with
        | none =>
          rw [hfault] at h
          cases h
          exact ⟨o.override p, hfault, rfl⟩
        | some fault =>
          rw [hfault] at h
          cases h

/-- No event of a run without a window breaks off for a speed or a size, since the start of the program has looked at them. -/
theorem Report.bench_eq_attempts {o : Options} {read : String → FileContent} {settings : Settings} {text : String}
    (headless : o.headless = true) (h : o.launch read = .ok (settings, some text)) :
    let opened := (Bench.ofSurface (settings.setup false) settings.surface).attempt
      (.replace none text settings.speed settings.scale)
    opened.2 = .nothing ∧ bench settings text = (opened.1.attempt (.run 0)).1.attempt (.runPending wakeUpLimit) := by
  obtain ⟨p, hfault, rfl⟩ := Options.settings_of_launch h
  rw [Options.fault?, if_pos headless] at hfault
  obtain ⟨hspeed, hcenter⟩ := Profile.usable_of_sessionFault hfault
  rw [Bench.start_eq_attempt hcenter text hspeed]
  exact ⟨rfl, rfl⟩

end WireCut
