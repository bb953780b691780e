import WireCut.CommandLine.Launch
import WireCut.CommandLine.Report

/-! The command line. It reads the files that the options name, and prints the report of a run. -/
namespace WireCut

def usage : String :=
  "usage: wirecut [--help] [--preset NAME] [--config FILE] [--speed N] [--scale X] [--headless]"
    ++ " [--log-level LEVEL] [FILE]"

def contentAt (path : String) : IO FileContent := do
  if path.contains '\x00' then return .unreachable .nullCharacter
  try
    return .bytes (← IO.FS.readBinFile path)
  catch
    | .noFileOrDirectory .. => return .missing
    | _ => return .directory

/-- Run the program of a command line to its end. There is no window to open, so a command line that asks for
one is refused. -/
def runOptions (o : Options) : IO UInt32 := do
  let paths := o.configPath?.toList ++ o.file.toList
  let contents ← paths.mapM fun path => return (path, ← contentAt path)
  match o.launch fun path => (contents.lookup path).getD .missing with
  | .error reason =>
    IO.eprintln reason.message
    return 2
  | .ok (settings, text) =>
    if o.headless then
      match Report.ofProgram settings (text.getD "") with
      | .error reason =>
        IO.eprintln ("error: " ++ reason.message)
        return 1
      | .ok lines =>
        lines.forM IO.println
        return 0
    else
      IO.eprintln "error: No window can be opened here, use --headless"
      return 2

end WireCut

def main (args : List String) : IO UInt32 := do
  match WireCut.Options.ofArguments args with
  | .help =>
    IO.println WireCut.usage
    return 0
  | .rejected =>
    IO.eprintln WireCut.usage
    return 2
  | .options o => WireCut.runOptions o
