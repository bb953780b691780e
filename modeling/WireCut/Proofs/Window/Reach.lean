import WireCut.Proofs.Window.InStep

/-! The states of a simulator that can be reached: whatever the user does and in whatever order the timers call back, the
window stays in step with its current session, and the sessions before it stay as they are. -/
namespace WireCut

private theorem Surface.size_center (s : Surface) : s.center.size = s.size := rfl

namespace Window
variable {w : Window} {least : Quantity} {older : List Session} {session : Session}

private theorem Usable.congr {v : Window} (h : w.Usable least) (hbox : v.speedBox = w.speedBox)
    (hsize : v.surface.size = w.surface.size) : v.Usable least := by
  refine ⟨?_, ?_⟩
  · rw [hbox]
    exact h.box
  · rw [Surface.hasCenter_congr hsize]
    exact h.center

/-- A session that acts keeps its window in step. -/
private theorem InStep.act (h : w.InStep older session) (a : Playback.Act) :
    (w.settle w.current (session.playback.act w.surface a)).InStep older
      { session with playback := (session.playback.act w.surface a).playback } := by
  obtain ⟨console, asked, hmarks⟩ := applyMarks_frame (session.playback.act w.surface a).marks
    { w with
      surface := (session.playback.act w.surface a).surface
      sessions := w.sessions.modify w.current fun s =>
        { s with playback := (session.playback.act w.surface a).playback } }
  rw [settle, hmarks]
  refine ⟨h.modify_current _, ?_, ?_, ?_, ?_, h.stopped⟩
  · exact h.text_eq.trans (w.editor.text_applyMarks _ _).symm
  · exact (Playback.act_program _ _ _).trans h.program_eq
  · rw [Playback.act_setup]
    exact h.followed
  · dsimp only
    obtain ⟨c, hc, heq⟩ | ⟨-, heq⟩ | ⟨speed, mode, generation, -, heq⟩ := session.playback.act_cases w.surface a
    · -- a command is executed, and its line is one of the text in the editor
      have hmem : c ∈ Program.commands session.text := by
        rw [h.program_eq, List.getElem?_toArray] at hc
        exact List.mem_of_getElem? hc
      obtain ⟨n, hline, hn⟩ := Program.line_of_mem_commands hmem
      have hcount : n < w.editor.lineCount := by
        rw [Editor.lineCount, ← h.text_eq]
        exact hn
      have hmarked : (session.playback.executeCommand w.surface c).playback.marked = some (n : Int) := by
        rw [Playback.executeCommand_eq, Playback.settle_eq]
        split <;> simp [Playback.finish, Playback.executed, Playback.follow_fst, h.followed, hline]
      have hreport : ((session.playback.record (session.playback.machine.execute c).report).follow c.line).2 =
          (session.playback.follow n).2 := by
        rw [Playback.follow_snd, Playback.follow_snd, Playback.record_setup, Playback.record_marked, hline]
      rw [heq, hmarked, Playback.executeCommand_eq, hreport]
      exact h.shown.follow h.followed hcount
    · rw [heq, Playback.reset, if_pos h.followed]
      exact Editor.shows_unmarkAll _ _
    · rw [heq]
      exact h.shown

private theorem Usable.settle (h : w.Usable least) (index : Nat) {played : Played}
    (hsize : played.surface.size = w.surface.size) : (w.settle index played).Usable least := by
  obtain ⟨console, asked, hmarks⟩ := applyMarks_frame played.marks
    { w with
      surface := played.surface
      sessions := w.sessions.modify index fun s => { s with playback := played.playback } }
  rw [Window.settle, hmarks]
  exact h.congr rfl hsize

/-- A window that is in step after a new session was opened or an old one has acted: the sessions that were stopped
before are still there, and more may have been. -/
def Follows (least : Quantity) (older : List Session) (w : Window) : Prop :=
  ∃ newer session, older <+: newer ∧ w.InStep newer session ∧ w.Usable least

private theorem Follows.of_inStep (h : w.InStep older session) (hw : w.Usable least) : w.Follows least older :=
  ⟨older, session, List.prefix_rfl, h, hw⟩

private theorem Follows.mono {newer : List Session} (h : w.Follows least newer) (hle : older <+: newer) :
    w.Follows least older := by
  obtain ⟨newest, session, hle', hw, husable⟩ := h
  exact ⟨newest, session, hle.trans hle', hw, husable⟩

def opening (w : Window) : Opened :=
  Session.create (w.settings.setup true) w.editor.text (some w.speedBox.value) w.scaleBox.value w.surface

private theorem openSession_frame (w : Window) :
    ∃ console asked status statistics, w.openSession =
      { w with
        editor := (w.editor.applyMarks w.viewport.activeLine w.opening.marks).1
        viewport :=
          { w.viewport with activeLine := (w.editor.applyMarks w.viewport.activeLine w.opening.marks).2 }
        surface := w.opening.surface
        sessions := w.sessions ++ [w.opening.session]
        console, asked, status, statistics } := by
  have hopen : w.openSession = refresh
      { w.opening.marks.foldl applyMark { w with surface := w.opening.surface } with
        sessions := (w.opening.marks.foldl applyMark { w with surface := w.opening.surface }).sessions ++
          [w.opening.session] } := rfl
  obtain ⟨console, asked, hmarks⟩ := applyMarks_frame w.opening.marks { w with surface := w.opening.surface }
  rw [hmarks] at hopen
  obtain ⟨status, statistics, hrefresh⟩ := refresh_frame
    { w with
      editor := (w.editor.applyMarks w.viewport.activeLine w.opening.marks).1
      viewport := { w.viewport with activeLine := (w.editor.applyMarks w.viewport.activeLine w.opening.marks).2 }
      surface := w.opening.surface
      sessions := w.sessions ++ [w.opening.session]
      console, asked }
  exact ⟨console, asked, status, statistics, hopen.trans hrefresh⟩

private theorem opening_eq (w : Window) :
    w.opening.session =
        ⟨w.editor.text, .fresh (w.settings.setup true) w.editor.text (some w.speedBox.value) w.scaleBox.value⟩ ∧
      w.opening.marks = [.unmarkAll] ∧ w.opening.surface.size = w.surface.size := by
  rw [opening, Session.create_eq]
  have hfollowed : (w.settings.setup true).followed = true := rfl
  dsimp only
  rw [if_pos hfollowed, Surface.size_prepare, Surface.size_prepare]
  exact ⟨rfl, rfl, rfl⟩

/-- A session that is opened while all others are stopped is in step with the window. -/
private theorem openSession_follows (h : w.Usable least) (hstopped : ∀ old ∈ w.sessions, old.playback.mode ≠ .running) :
    w.openSession.Follows least w.sessions := by
  obtain ⟨console, asked, status, statistics, heq⟩ := w.openSession_frame
  obtain ⟨hsession, hmarks, hsize⟩ := w.opening_eq
  rw [heq]
  refine .of_inStep (?_ : InStep _ w.sessions w.opening.session) (h.congr rfl hsize)
  refine ⟨rfl, ?_, ?_, ?_, ?_, hstopped⟩
  · rw [hsession]
    exact (w.editor.text_applyMarks _ _).symm
  · rw [hsession]
    rfl
  · rw [hsession]
    rfl
  · rw [hsession, hmarks]
    exact Editor.shows_unmarkAll _ _

private theorem mode_pause (p : Playback) : p.pause.mode ≠ .running := by
  rw [Playback.pause]
  dsimp only
  split
  · decide
  · rename_i hmode
    exact hmode

/-- A session that takes the place of the current one is in step with the window. -/
private theorem rebuild_follows (h : w.Usable least) (hquiet : ∀ old ∈ w.sessions.dropLast, old.playback.mode ≠ .running) :
    w.rebuild.failure = none ∧ w.rebuild.window.Follows least w.sessions.dropLast := by
  have hfits : w.speedBox.value.fits = true := h.box.fits
  have hrebuild : w.rebuild = .done (w.update Playback.pause).openSession := by
    simp only [rebuild, hfits, h.center]
    rfl
  rw [hrebuild]
  refine ⟨rfl, ?_⟩
  have hstopped : Usable least (w.update Playback.pause) := h.congr rfl rfl
  obtain hnil | ⟨older, session, hsessions⟩ := w.sessions.eq_nil_or_concat
  · have hsame : (w.update Playback.pause).sessions = [] := by simp [update, hnil]
    have hopen := openSession_follows hstopped (hsame ▸ List.forall_mem_nil _)
    rw [hsame] at hopen
    rw [hnil]
    exact hopen
  · rw [hsessions, List.concat_eq_append, List.dropLast_concat] at hquiet ⊢
    have hlast : (w.update Playback.pause).sessions = older ++ [session.retire] := by
      simp only [update, current, hsessions, List.concat_eq_append, List.length_append, List.length_singleton,
        Nat.add_sub_cancel]
      exact modify_last _ _ _
    have hopen : (w.update Playback.pause).openSession.Follows least (older ++ [session.retire]) := by
      rw [← hlast]
      refine openSession_follows hstopped ?_
      rw [hlast]
      intro old hold
      obtain hold | rfl := List.mem_append.mp hold |>.imp_right List.mem_singleton.mp
      · exact hquiet old hold
      · exact mode_pause _
    exact hopen.mono (List.prefix_append _ _)

private theorem Follows.congr {v : Window} (h : w.Follows least older) (hsessions : v.sessions = w.sessions)
    (htext : v.editor.text = w.editor.text) (hmarked : v.editor.marked = w.editor.marked)
    (hactive : v.viewport.activeLine = w.viewport.activeLine) (hbox : v.speedBox = w.speedBox)
    (hsurface : v.surface = w.surface) : v.Follows least older := by
  obtain ⟨newer, session, hle, hw, husable⟩ := h
  exact ⟨newer, session, hle, hw.congr hsessions htext hmarked hactive, husable.congr hbox (hsurface ▸ rfl)⟩

private theorem Follows.refresh (h : w.Follows least older) : w.refresh.Follows least older := by
  obtain ⟨status, statistics, heq⟩ := w.refresh_frame
  rw [heq]
  exact h.congr rfl rfl rfl rfl rfl rfl

private theorem act_follows (h : w.InStep older session) (hw : w.Usable least) (a : Playback.Act) :
    (w.settle w.current (session.playback.act w.surface a)).Follows least older :=
  .of_inStep (h.act a) (hw.settle _ (Surface.size_act _ _ _))

/-- A run that begins or ends is not seen. -/
private theorem run_unseen (p : Playback) : p.run.1.program = p.program ∧ p.run.1.setup = p.setup ∧ p.run.1.marked = p.marked := by
  obtain ⟨-, heq⟩ | ⟨-, -, heq⟩ | ⟨-, -, heq⟩ := p.run_cases <;> rw [heq] <;> exact ⟨rfl, rfl, rfl⟩

private theorem completed_of_ok {handled : Handled} (h : handled.failure = none) (change : Window → Window) :
    handled.completed change = .done (change handled.window) := by
  simp [Handled.completed, Handled.andThen, h]

/-- A new text gets a new session, and the editor shows its cursor. -/
private theorem edit_follows (h : w.Usable least) (hquiet : ∀ old ∈ w.sessions.dropLast, old.playback.mode ≠ .running)
    (text : String) : (w.edit text).failure = none ∧ (w.edit text).window.Follows least w.sessions.dropLast := by
  have hedited : Usable least { w with editor := w.editor.setText text } := h.congr rfl rfl
  obtain ⟨hok, hrebuilt⟩ := rebuild_follows hedited hquiet
  rw [edit, completed_of_ok hok]
  exact ⟨rfl, hrebuilt.congr rfl rfl rfl rfl rfl rfl⟩

end Window

/-- What the user can do with a window. The active line only follows the execution, and the halves of a size are within
the range of floats. -/
def WindowEvent.ByUser : WindowEvent → Prop
  | .activate _ => False
  | .resize width height => (Quantity.whole width).halves = true ∧ (Quantity.whole height).halves = true
  | _ => True

namespace Window
variable {w : Window} {least : Quantity} {older : List Session} {session : Session}

private theorem run_follows (h : w.InStep older session) (hw : w.Usable least) : w.run.Follows least older := by
  have heq : w.run = refresh (if session.playback.run.2
      then (w.update fun _ => session.playback.run.1).ask 0 (.wake ⟨w.current, session.playback.run.1.generation⟩)
      else w.update fun _ => session.playback.run.1) := by
    rw [run, h.session?]
  obtain ⟨hprogram, hsetup, hmarked⟩ := run_unseen session.playback
  have hrun : (w.update fun _ => session.playback.run.1).Follows least older :=
    .of_inStep (h.update _ hprogram hsetup hmarked) (hw.congr rfl rfl)
  rw [heq]
  refine Follows.refresh ?_
  split
  · exact hrun.congr rfl rfl rfl rfl rfl rfl
  · exact hrun

private theorem reset_follows (h : w.InStep older session) (hw : w.Usable least) : w.reset.window.Follows least older := by
  have heq : w.reset = .done (w.settle w.current (session.playback.reset w.surface)).refresh := by
    rw [reset, h.session?]
    exact if_pos hw.center
  rw [heq]
  exact (act_follows h hw .reset).refresh

private theorem rebuild_of_sessions {v : Window} (h : w.InStep older session) (hv : v.Usable least)
    (hsessions : v.sessions = w.sessions) : v.rebuild.window.Follows least older := by
  have holder : v.sessions.dropLast = older := by rw [hsessions, h.sessions_eq, List.dropLast_concat]
  rw [← holder]
  exact (rebuild_follows hv (holder ▸ h.stopped)).2

private theorem load_follows (h : w.InStep older session) (hw : w.Usable least) (path : String) (content : FileContent) :
    (w.load path content).window.Follows least older := by
  have holder : w.sessions.dropLast = older := by rw [h.sessions_eq, List.dropLast_concat]
  have hself : w.Follows least older := .of_inStep h hw
  rw [load]
  split
  · exact hself
  · split
    · rename_i cs _
      obtain ⟨hok, hedited⟩ := edit_follows hw (holder ▸ h.stopped) (String.ofList cs)
      rw [completed_of_ok hok, ← holder]
      exact hedited.congr rfl rfl rfl rfl rfl rfl
    · exact hself.congr rfl rfl rfl rfl rfl rfl

private theorem tellSaved_follows (h : w.Follows least older) (path : String) (failure : Option FileError) :
    (w.tellSaved path failure).Follows least older := by
  unfold tellSaved
  split
  · exact h
  · split <;> exact h.congr rfl rfl rfl rfl rfl rfl

private theorem choosePreset_follows (hpos : (Quantity.whole 0).lt least = true) (hfits : least.fits = true)
    (h : w.InStep older session) (hw : w.Usable least) (preset : Preset) :
    (w.choosePreset preset).window.Follows least older := by
  rw [choosePreset]
  split
  · exact .of_inStep h hw
  · generalize Settings.ofPreset preset = settings
    exact rebuild_of_sessions h ⟨hw.box.set hpos hfits _, hw.center⟩ rfl

private theorem chooseSpeed_follows (hpos : (Quantity.whole 0).lt least = true) (hfits : least.fits = true)
    (h : w.InStep older session) (hw : w.Usable least) (speed : Int) :
    (w.chooseSpeed speed).window.Follows least older := by
  have hbox := hw.box.set hpos hfits (.whole speed)
  rw [chooseSpeed]
  generalize w.speedBox.set (.whole speed) = speedBox at hbox ⊢
  split
  · exact .of_inStep h hw
  · rw [if_neg (by simp [hbox.fits])]
    have hboxed : InStep { w with speedBox } older session := h.congr rfl rfl rfl rfl
    have hset := session.playback.setSpeed_eq (some speedBox.value)
    have hupdated := hboxed.update (fun p => p.setSpeed (some speedBox.value)) (by rw [hset]) (by rw [hset])
      (by rw [hset])
    exact .of_inStep hupdated ⟨hbox, hw.center⟩

private theorem chooseScale_follows (h : w.InStep older session) (hw : w.Usable least) (scale : Float) :
    (w.chooseScale scale).window.Follows least older := by
  rw [chooseScale]
  generalize ScaleBox.ofFloat scale = scaleBox
  split
  · exact .of_inStep h hw
  · exact rebuild_of_sessions (v := { w with scaleBox }) h (hw.congr rfl rfl) rfl

private theorem resize_follows (h : w.InStep older session) (hw : w.Usable least) {width height : Int}
    (hwidth : (Quantity.whole width).halves = true) (hheight : (Quantity.whole height).halves = true) :
    (w.resize width height).window.Follows least older := by
  have hcenter : (w.surface.setSize (.whole width) (.whole height)).hasCenter = true := by
    simp only [Surface.hasCenter, Surface.setSize, hwidth, hheight, Bool.and_self]
  rw [resize]
  generalize w.surface.setSize (.whole width) (.whole height) = surface at hcenter ⊢
  dsimp only
  rw [if_pos hcenter]
  exact .of_inStep (h.congr rfl rfl rfl rfl) ⟨hw.box, (Surface.hasCenter_congr surface.size_center).trans hcenter⟩

private theorem view_follows (h : w.Follows least older) (change : Viewport → Viewport)
    (hchange : ∀ v, (change v).activeLine = v.activeLine) : (w.view change).Follows least older :=
  h.congr rfl rfl rfl (hchange _) rfl rfl

/-- Whatever the user does, the window stays in step. -/
private theorem handle_follows (hpos : (Quantity.whole 0).lt least = true) (hfits : least.fits = true)
    (h : w.InStep older session) (hw : w.Usable least) {e : WindowEvent} (he : e.ByUser) :
    (w.handle e).window.Follows least older := by
  have hself : w.Follows least older := .of_inStep h hw
  cases e with
  | step =>
    rw [handle, step, h.session?]
    exact (act_follows h hw .step).refresh
  | run => exact run_follows h hw
  | pause =>
    have hpause : (w.update Playback.pause).Follows least older :=
      .of_inStep (h.update _ rfl rfl rfl) (hw.congr rfl rfl)
    exact hpause.refresh
  | reset => exact reset_follows h hw
  | edit text =>
    have holder : w.sessions.dropLast = older := by rw [h.sessions_eq, List.dropLast_concat]
    rw [← holder]
    exact (edit_follows hw (holder ▸ h.stopped) text).2
  | opened path content => exact load_follows h hw path content
  | saved path failure => exact tellSaved_follows hself path failure
  | choosePreset preset => exact choosePreset_follows hpos hfits h hw preset
  | chooseSpeed speed => exact chooseSpeed_follows hpos hfits h hw speed
  | chooseScale scale => exact chooseScale_follows h hw scale
  | resize width height => exact resize_follows h hw he.1 he.2
  | activate line => exact he.elim
  | press x y => exact view_follows hself (·.press x y) fun _ => rfl
  | drag x y left => exact view_follows hself (·.drag x y left) fun _ => by cases left <;> rfl
  | wheel delta =>
    rw [handle, wheel]
    split
    · rename_i factor _
      exact view_follows hself (·.zoomBy factor w.settings) fun _ => rfl
    · exact hself
  | resetView => exact view_follows hself Viewport.resetView fun _ => rfl

/-- A wake-up that its session does not await changes nothing. -/
private theorem settle_still {index : Nat} (hsession : w.sessions[index]? = some session) :
    w.settle index ⟨session.playback, w.surface, []⟩ = w := by
  have hsame : w.sessions.modify index (fun s => { s with playback := session.playback }) = w.sessions := by
    apply List.ext_getElem?
    intro i
    rw [List.getElem?_modify]
    by_cases hi : index = i
    · subst hi
      simp [hsession]
    · simp [hi]
  simp only [settle, List.foldl_nil, hsame]

/-- Whatever task a timer brings, the window stays in step. Only the current session can be woken. -/
private theorem react_follows (h : w.InStep older session) (hw : w.Usable least) (now : Int) (task : WindowTask) :
    (w.react now task).world.Follows least older := by
  have hself : w.Follows least older := .of_inStep h hw
  cases task with
  | refresh => exact hself.refresh
  | wake wakeUp =>
    rw [react]
    cases hsession : w.sessions[wakeUp.session]? with
    | none => exact hself
    | some woken =>
      have hwoken : (w.settle wakeUp.session (woken.playback.wake w.surface wakeUp.generation).played).Follows
          least older := by
        cases hawaits : woken.playback.awaits wakeUp.generation with
        | false =>
          rw [Playback.wake_of_not_awaits _ _ _ hawaits, settle_still hsession]
          exact hself
        | true =>
          have hrunning := (Playback.awaits_iff.mp hawaits).2
          have hcurrent : w.current = wakeUp.session ∧ woken = session := by
            rw [h.sessions_eq] at hsession
            obtain hlt | hge := Nat.lt_or_ge wakeUp.session older.length
            · rw [List.getElem?_append_left hlt] at hsession
              exact absurd hrunning (h.stopped _ (List.mem_of_getElem? hsession))
            · rw [List.getElem?_append_right hge, List.getElem?_singleton] at hsession
              split at hsession
              · rename_i hzero
                refine ⟨?_, (Option.some.inj hsession).symm⟩
                rw [current, h.sessions_eq, List.length_append, List.length_singleton]
                omega
              · cases hsession
          obtain ⟨hindex, rfl⟩ := hcurrent
          rw [Playback.wake_of_awaits _ _ _ hawaits, ← hindex]
          exact act_follows h hw .step
      dsimp only
      split <;> exact hwoken.congr rfl rfl rfl rfl rfl rfl

end Window

namespace Simulator

/-- A waiting timer that calls back at any time, before or after others that are due. -/
def callBack (s : Simulator) (x : Entry WindowTask) (now : Int) : Simulator :=
  let reaction := s.window.react now x.task
  ⟨reaction.world, Agenda.scheduleAll { s.agenda with now, entries := s.agenda.entries.erase x } reaction.posts⟩

inductive Moves (s : Simulator) : Simulator → Prop where
  | handle (e : WindowEvent) (byUser : e.ByUser) : Moves s (s.handle e).1
  | wait (ms : Int) : Moves s (s.wait ms).1
  | callBack (x : Entry WindowTask) (waiting : x ∈ s.agenda.entries) (now : Int) : Moves s (s.callBack x now)

def Reaches : Simulator → Simulator → Prop :=
  Relation.ReflTransGen Moves

variable {s t : Simulator} {least : Quantity} {older : List Session}

private theorem follows_of_moves (hpos : (Quantity.whole 0).lt least = true) (hfits : least.fits = true)
    (h : s.window.Follows least older) (hmoves : s.Moves t) : t.window.Follows least older := by
  have hreact (now : Int) (task : WindowTask) {w : Window} (hw : w.Follows least older) :
      (w.react now task).world.Follows least older := by
    obtain ⟨newer, session, hle, hw, husable⟩ := hw
    exact (Window.react_follows hw husable now task).mono hle
  cases hmoves with
  | handle e byUser =>
    obtain ⟨newer, session, hle, hw, husable⟩ := h
    have hhandled := (Window.handle_follows hpos hfits hw husable byUser).mono hle
    exact hhandled.congr rfl rfl rfl rfl rfl rfl
  | wait ms =>
    exact Agenda.advance_keeps (P := fun _ w => w.Follows least older)
      (fun _ _ e _ _ hw => hreact e.due e.task hw) (fun _ _ _ hw => hw) s.budget ms s.agenda s.window h
  | callBack x _ now => exact hreact now x.task h

private theorem follows_of_reaches (hpos : (Quantity.whole 0).lt least = true) (hfits : least.fits = true)
    (h : s.window.Follows least older) (hreaches : s.Reaches t) : t.window.Follows least older := by
  induction hreaches with
  | refl => exact h
  | tail _ hmoves ih => exact follows_of_moves hpos hfits ih hmoves

/-- A simulator is in step once it has been opened. -/
private theorem start_follows {settings : Settings} (hpos : (Quantity.whole 0).lt settings.minSpeed = true)
    (hfits : settings.minSpeed.fits = true) (hcenter : settings.surface.hasCenter = true) (text : Option String) :
    (start settings text).window.Follows settings.minSpeed [] := by
  have hblank : (Window.blank settings).Usable settings.minSpeed :=
    ⟨SpeedBox.within_ofSpeeds hpos hfits _, hcenter⟩
  obtain ⟨hok, newer, session, -, hw, husable⟩ :=
    Window.edit_follows hblank (List.forall_mem_nil _) (text.getD Window.sample)
  have hquiet : ∀ old ∈ ((Window.blank settings).edit (text.getD Window.sample)).window.sessions.dropLast,
      old.playback.mode ≠ .running := by
    rw [hw.sessions_eq, List.dropLast_concat]
    exact hw.stopped
  have hcreated : (Window.create settings text).Follows settings.minSpeed [] := by
    rw [Window.create, Handled.andThen, hok]
    exact (Window.rebuild_follows husable hquiet).2.mono List.nil_prefix
  exact hcreated.congr rfl rfl rfl rfl rfl rfl

/-- In every state that can be reached, the current session has the text of the editor, the editor marks the line that the
playback has marked and no other, the viewport shows it, and it is a line of the text. The sessions before the current one
never change again. -/
theorem reachable_in_step (settings : Settings) (hpos : (Quantity.whole 0).lt settings.minSpeed = true)
    (hfits : settings.minSpeed.fits = true) (hcenter : settings.surface.hasCenter = true) (text : Option String)
    (s : Simulator) (hreaches : (start settings text).Reaches s) :
    ∃ older session, s.window.sessions = older ++ [session] ∧ session.text = s.window.editor.text ∧
      s.window.editor.marked.map Int.ofNat = session.playback.marked.toList ∧
      s.window.viewport.activeLine = session.playback.marked.getD (-1) ∧
      (∀ line ∈ s.window.editor.marked, line < s.window.editor.lineCount) ∧
      ∀ t, s.Reaches t → older <+: t.window.sessions.dropLast := by
  obtain ⟨older, session, -, hw, husable⟩ := follows_of_reaches hpos hfits (start_follows hpos hfits hcenter text) hreaches
  refine ⟨older, session, hw.sessions_eq, hw.text_eq, hw.shown.marked_eq, hw.shown.active_eq, hw.shown.marked_lt, ?_⟩
  intro t hreaches'
  obtain ⟨newer, last, hle, ht, -⟩ := follows_of_reaches hpos hfits (.of_inStep hw husable) hreaches'
  rw [ht.sessions_eq, List.dropLast_concat]
  exact hle

/-- A program runs and is replaced after its first line, and the new one is on its second line when the timer of the old
run calls back, ahead of others that are due. -/
theorem replaced_run_in_step :
    let settings := Settings.ofPreset .default
    let opened := start settings (some "G1 X1\nG1 X2")
    let replaced := (((opened.handle .run).1.wait 0).1.handle (.edit "\nM2")).1
    let s := (replaced.handle .step).1.callBack ⟨200, 4, .wake ⟨1, 2⟩⟩ 7
    ((Quantity.whole 0).lt settings.minSpeed = true ∧ settings.minSpeed.fits = true ∧
        settings.surface.hasCenter = true ∧ opened.Reaches s ∧ s.window.editor.marked = [1]) ∧
      ∃ older session, s.window.sessions = older ++ [session] ∧ session.text = s.window.editor.text ∧
        s.window.editor.marked.map Int.ofNat = session.playback.marked.toList ∧
        s.window.viewport.activeLine = session.playback.marked.getD (-1) ∧
        (∀ line ∈ s.window.editor.marked, line < s.window.editor.lineCount) ∧
        ∀ t, s.Reaches t → older <+: t.window.sessions.dropLast := by
  intro settings opened replaced s
  have hsettings : (Quantity.whole 0).lt settings.minSpeed = true ∧ settings.minSpeed.fits = true ∧
      settings.surface.hasCenter = true := by
    decide +kernel
  obtain ⟨hpos, hfits, hcenter⟩ := hsettings
  have hrun : opened.Reaches ((opened.handle .run).1.wait 0).1 :=
    .tail (.single (.handle .run trivial)) (.wait 0)
  have hreplaced : opened.Reaches (replaced.handle .step).1 :=
    .tail (.tail hrun (.handle (.edit "\nM2") trivial)) (.handle .step trivial)
  have hreaches : opened.Reaches s := .tail hreplaced (.callBack _ (by decide +kernel) 7)
  exact ⟨⟨hpos, hfits, hcenter, hreaches, by decide +kernel⟩,
    reachable_in_step settings hpos hfits hcenter (some "G1 X1\nG1 X2") s hreaches⟩

end Simulator

end WireCut
