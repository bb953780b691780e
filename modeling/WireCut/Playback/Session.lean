import WireCut.Playback.Basic

/-! Sessions. A session is a text and everything that follows from it, and a change of the text makes a new
session in the place of the old one. -/
namespace WireCut

structure Session where
  text : String
  playback : Playback
deriving DecidableEq

structure Opened where
  session : Session
  surface : Surface
  marks : List MarkChange

namespace Session

/-- Open a session on a surface. The surface is prepared, and the marks of the editor are removed. -/
def create (setup : Setup) (text : String) (speed : Option Quantity) (scale : Float) (s : Surface) : Opened :=
  let playback := Playback.load setup (Program.commands text).toArray speed scale
    (some (Program.warnings text).reverse)
  let played := playback.reset (playback.pen.prepare s)
  ⟨⟨text, played.playback⟩, played.surface, played.marks⟩

def createBare (setup : Setup) (text : String) (speed : Option Quantity) (scale : Float) (s : Surface) : Opened :=
  let playback := Playback.load setup (Program.commands text).toArray speed scale none
  ⟨⟨text, playback⟩, playback.pen.prepare s, []⟩

def retire (session : Session) : Session :=
  { session with playback := session.playback.pause }

end Session

end WireCut
