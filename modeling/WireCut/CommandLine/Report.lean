import WireCut.Playback.Bench
import WireCut.Settings.Basic

/-! The report of a run without a window: a program is run to its end, and what it drew is told in a few
lines. -/
namespace WireCut

namespace Report

def wakeUpLimit : Nat := 100000

def bench (settings : Settings) (text : String) : Bench × Reply :=
  let fresh := Bench.start (settings.setup false) settings.surface text settings.speed settings.scale
  (fresh.perform (.run 0)).1.perform (.runPending wakeUpLimit)

def number (v : Float) : String := Decimal.fixed 3 v

def point (p : Point) : String :=
  "(" ++ number p.x ++ ", " ++ number p.y ++ ")"

def lines (p : Playback) (s : Surface) (box : Bounds) : List String :=
  let stats := s.statistics
  ["Commands executed: " ++ Decimal.digitText p.cursor ++ "/" ++ Decimal.digitText p.program.size,
    "Segments: " ++ Decimal.digitText stats.strokes ++ " (" ++ Decimal.digitText stats.lines ++ " lines, "
      ++ Decimal.digitText stats.arcs ++ " arcs)",
    "Total length: " ++ number stats.length,
    "Bounds: " ++ point box.low ++ " - " ++ point box.high,
    "Final position: " ++ point p.machine.position]
    ++ p.diagnostics.map fun d => "  " ++ d.text

def ofProgram (settings : Settings) (text : String) : Except ArithmeticError (List String) :=
  match bench settings text with
  | (_, .failed reason) => .error reason
  | (b, _) =>
    b.desk.surface.bounds.map fun box =>
      (b.desk.sessions.map fun session => lines session.playback b.desk.surface box).flatten

end Report

end WireCut
