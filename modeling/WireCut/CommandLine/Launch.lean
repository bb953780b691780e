import WireCut.CommandLine.Options
import WireCut.Settings.Fault
import WireCut.Settings.File
import WireCut.Window.Fault

/-! The start of the program: options become settings and a program text. -/
namespace WireCut

inductive LaunchError where
  | configuration (path : String) (reason : ProfileError)
  | program (path : String) (reason : FileError)
  | nesting (reason : DepthError)
  | setting (fault : SettingFault)
deriving DecidableEq

def ProfileError.message (e : ProfileError) : String :=
  match e, e.message? with
  | _, some text => text
  | .unreadable reason, none => reason.message
  | .malformed, none => "not valid JSON"
  | _, none => "a limit is not a number"

def LaunchError.message : LaunchError → String
  | .configuration path reason => "error: Cannot load configuration " ++ path ++ ": " ++ reason.message
  | .program path reason => "error: Cannot read " ++ path ++ ": " ++ reason.message
  | .nesting reason => "error: " ++ reason.message
  | .setting fault => "error: " ++ fault.message

def LaunchError.ofProfileError (path : String) : ProfileError → LaunchError
  | .tooDeep reason => .nesting reason
  | reason => .configuration path reason

/-- The value that an option sets in a profile. An option without a value sets an empty array. -/
def Given.toJson {α : Type} (ofValue : α → Json) : Given α → Json
  | .value a => ofValue a
  | .nothing => .arr []

namespace Options

def configPath? (o : Options) : Option String :=
  match o.config with
  | some (.value path) => if path.isEmpty then none else some path
  | _ => none

def profile (o : Options) (read : String → FileContent) : Except LaunchError Profile :=
  match o.configPath?, o.preset with
  | some path, _ => (Profile.load (read path)).mapError (.ofProfileError path)
  | none, .value preset => .ok preset.profile
  | none, .nothing => .error (.setting .noPreset)

def override (o : Options) (p : Profile) : Profile :=
  let p := match o.speed with
    | none => p
    | some given => p.set .speed (given.toJson .int)
  match o.scale with
  | none => p
  | some given => p.set .scale (given.toJson .float)

def programText (o : Options) (read : String → FileContent) : Except LaunchError (Option String) :=
  match o.file.filter (!·.isEmpty) with
  | none => .ok none
  | some path => ((read path).text.map fun cs => some (String.ofList cs)).mapError (.program path)

def fault? (o : Options) (p : Profile) : Option SettingFault :=
  if o.headless then p.sessionFault? else p.windowFault?

/-- The settings and the program text of a command line. The configuration is read first, and faults of the
settings come last. -/
def launch (o : Options) (read : String → FileContent) : Except LaunchError (Settings × Option String) := do
  if o.logLevel = .nothing then throw (.setting .noLogLevel)
  let p ← o.profile read
  let text ← o.programText read
  let p := o.override p
  match o.fault? p with
  | some fault => throw (.setting fault)
  | none => return (.ofProfile p, text)

end Options

end WireCut
