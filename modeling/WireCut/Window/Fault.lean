import WireCut.Settings.Fault
import WireCut.Window.Controls

/-! Faults of settings that a window comes upon when it is opened. Its controls come before its session. -/
namespace WireCut.Profile

def boxFault? (p : Profile) : Option SettingFault :=
  if (p .speed).quantity?.isSome then none else some (.notOrdered (p .minSpeed).kind (p .speed).kind)

def boxedFault? (p : Profile) : Option SettingFault :=
  match (p .minSpeed).quantity?, (p .speed).quantity? with
  | some least, some speed =>
    if (SpeedBox.ofSpeeds least speed).value.fits then none else some (.arithmetic .tooLarge)
  | _, _ => none

/-- The first fault that a window comes upon. The scale in its box is a float. -/
def windowFault? (p : Profile) : Option SettingFault :=
  [p.boxFault?, realFault? .notReal (p .scale), p.boxedFault?, p.drawingFault? (.float 1)].findSome? id

end WireCut.Profile
