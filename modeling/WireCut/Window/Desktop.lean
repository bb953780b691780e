import WireCut.Text.Folder
import WireCut.Window.Event

/-! A simulator with a folder around it, from which programs are loaded and to which they are saved. -/
namespace WireCut

inductive DesktopError where
  | arithmetic (reason : ArithmeticError)
  | nullCharacter
deriving DecidableEq

structure Desktop where
  simulator : Simulator
  folder : Folder

namespace Desktop

def handle (d : Desktop) (event : WindowEvent) : Desktop × Option DesktopError :=
  let (simulator, failure) := d.simulator.handle event
  ({ d with simulator }, failure.map .arithmetic)

def load (d : Desktop) (path : String) : Desktop × Option DesktopError :=
  match d.folder.locate path with
  | .error .nullCharacter => (d, some .nullCharacter)
  | _ => d.handle (.opened path (d.folder.read path))

def save (d : Desktop) (path : String) : Desktop × Option DesktopError :=
  match d.folder.write path d.simulator.window.editor.text.toUTF8 with
  | .error .nullCharacter => (d, some .nullCharacter)
  | .error reason => d.handle (.saved path (some reason))
  | .ok folder => { d with folder }.handle (.saved path none)

end Desktop

end WireCut
