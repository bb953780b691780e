import WireCut.Agenda
import WireCut.CommandLine.Argument
import WireCut.CommandLine.Launch
import WireCut.CommandLine.Options
import WireCut.CommandLine.Report
import WireCut.Diagnostic
import WireCut.Editor.Basic
import WireCut.Editor.Gutter
import WireCut.Editor.Highlight
import WireCut.Editor.Look
import WireCut.Geometry.Arc
import WireCut.Geometry.Bounds
import WireCut.Geometry.Point
import WireCut.Geometry.Stroke
import WireCut.Json.Printer
import WireCut.Json.Reader
import WireCut.Json.Value
import WireCut.Machine.Execute
import WireCut.Machine.Instruction
import WireCut.Machine.Request
import WireCut.Machine.State
import WireCut.Main
import WireCut.Number.Circular
import WireCut.Number.Decimal
import WireCut.Number.Exact
import WireCut.Number.Literal
import WireCut.Number.Order
import WireCut.Number.Quantity
import WireCut.Number.Remainder
import WireCut.Playback.Basic
import WireCut.Playback.Bench
import WireCut.Playback.Session
import WireCut.Program.Command
import WireCut.Program.Number
import WireCut.Settings.Basic
import WireCut.Settings.Fault
import WireCut.Settings.File
import WireCut.Settings.Profile
import WireCut.Surface.Basic
import WireCut.Surface.Pen
import WireCut.Surface.Transform
import WireCut.Text.Blank
import WireCut.Text.DecimalDigit
import WireCut.Text.File
import WireCut.Text.Folder
import WireCut.Text.Line
import WireCut.Text.UpperCase
import WireCut.Text.Word
import WireCut.Viewport.Basic
import WireCut.Viewport.Call
import WireCut.Window.Basic
import WireCut.Window.Controls
import WireCut.Window.Desktop
import WireCut.Window.Event
import WireCut.Window.Fault
import WireCut.Window.Layout
import WireCut.Proofs.Agenda.Drain
import WireCut.Proofs.Bench.Event
import WireCut.Proofs.Machine.Replay
import WireCut.Proofs.Playback.Stage
import WireCut.Proofs.Bench.Place
import WireCut.Proofs.Bench.Stage
import WireCut.Proofs.Bench.WakeUps
import WireCut.Proofs.Number.Binary64
import WireCut.Proofs.Number.Finite
import WireCut.Proofs.Number.Angle
import WireCut.Proofs.Bench.Reports
import WireCut.Proofs.Bench.Headless
import WireCut.Proofs.Agenda.History
import WireCut.Proofs.Agenda.Among
import WireCut.Proofs.Bench.Beside
import WireCut.Proofs.Bench.Replace
import WireCut.Proofs.Playback.Renewal
import WireCut.Proofs.Bench.Renewal
import WireCut.Proofs.Program.Warning
import WireCut.Proofs.Bench.Sound
import WireCut.Proofs.Bench.Ending
import WireCut.Proofs.Bench.Columns
import WireCut.Proofs.Bench.Beats
import WireCut.Proofs.Bench.Tempo
import WireCut.Proofs.Program.Ignored
import WireCut.Proofs.Agenda.Elapse
import WireCut.Proofs.Bench.Apart
import WireCut.Proofs.Number.Rounding
import WireCut.Proofs.Number.Value
import WireCut.Proofs.Number.Order
import WireCut.Proofs.Number.Monotone
import WireCut.Proofs.Geometry.Sweep
import WireCut.Proofs.Playback.Speed
import WireCut.Proofs.Settings.Usable
import WireCut.Proofs.Bench.Stranded
import WireCut.Proofs.Machine.Toolpath
import WireCut.Proofs.Machine.Axis
import WireCut.Proofs.Program.Omission
import WireCut.Proofs.Bench.Omission
import WireCut.Proofs.Bench.Strokes
import WireCut.Proofs.Bench.Marks
import WireCut.Proofs.Bench.View
import WireCut.Proofs.Program.Coloring
import WireCut.Proofs.Number.Scientific
import WireCut.Proofs.Number.Shortest
import WireCut.Proofs.Number.Digits
import WireCut.Proofs.Json.Legible
import WireCut.Proofs.Json.Numeral
import WireCut.Proofs.Json.Printed
import WireCut.Proofs.Settings.Saved
import WireCut.Proofs.Surface.Extent
import WireCut.Proofs.Number.Spelling
import WireCut.Proofs.Number.Sign
import WireCut.Proofs.Number.Closest
import WireCut.Proofs.Number.Whole
import WireCut.Proofs.Number.Place
import WireCut.Proofs.Program.Numeral
import WireCut.Proofs.Program.Reading
import WireCut.Proofs.Window.Boxes
import WireCut.Proofs.Window.InStep
import WireCut.Proofs.Window.Reach
import WireCut.Proofs.Json.Grammar
import WireCut.Proofs.Json.Parsed
import WireCut.Proofs.Settings.Checks
import WireCut.Proofs.Settings.Loaded
import WireCut.Proofs.Bench.Range
import WireCut.Proofs.Text.Pattern
import WireCut.Proofs.Program.Pattern
import WireCut.Proofs.Bench.Attempt
