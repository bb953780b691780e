import WireCut.CommandLine.Argument
import WireCut.Settings.Profile

/-! The options of the command line. A long option may be cut short as long as it stays unique, its value
follows it or an equals sign, and after two dashes every argument is a file. -/
namespace WireCut

inductive LogLevel where
  | debug
  | info
  | warning
  | error
deriving DecidableEq

def LogLevel.name : LogLevel → String
  | .debug => "DEBUG"
  | .info => "INFO"
  | .warning => "WARNING"
  | .error => "ERROR"

def LogLevel.all : List LogLevel := [.debug, .info, .warning, .error]

/-- The value that an option was given. Two dashes after an equals sign are dropped, and then there is
none. -/
inductive Given (α : Type) where
  | value (a : α)
  | nothing
deriving DecidableEq

def Given.ofText? {α : Type} (read : String → Option α) (text : String) : Option (Given α) :=
  if text = "--" then some .nothing else (read text).map .value

structure Options where
  file : Option String
  preset : Given Preset
  config : Option (Given String)
  speed : Option (Given Int)
  scale : Option (Given Float)
  headless : Bool
  logLevel : Given LogLevel
deriving DecidableEq

inductive Parsed where
  | options (o : Options)
  | help
  | rejected
deriving DecidableEq

namespace Options

def default : Options := ⟨none, .value .default, none, none, none, false, .value .warning⟩

inductive Flag where
  | help
  | preset
  | config
  | speed
  | scale
  | headless
  | logLevel
deriving DecidableEq

def spellings : List (List Char × Flag) :=
  [("-h".toList, .help), ("--help".toList, .help), ("--preset".toList, .preset), ("--config".toList, .config),
    ("--speed".toList, .speed), ("--scale".toList, .scale), ("--headless".toList, .headless),
    ("--log-level".toList, .logLevel)]

inductive Kind where
  | separator
  | option (flag : Flag) (short : Bool) (attached : Option (List Char))
  | unknown
  | plain
deriving DecidableEq

def splitEquals (arg : List Char) : List Char × Option (List Char) :=
  match arg.dropWhile (· ≠ '=') with
  | [] => (arg, none)
  | _ :: value => (arg.takeWhile (· ≠ '='), some value)

/-- The options that an argument may stand for: those that it begins, or the short one with letters attached
to it. -/
def candidates (arg : List Char) : List Kind :=
  match arg with
  | '-' :: '-' :: _ =>
    let (name, value) := splitEquals arg
    spellings.filterMap fun (spelling, flag) =>
      if name.isPrefixOf spelling then some (.option flag false value) else none
  | '-' :: c :: rest =>
    spellings.filterMap fun (spelling, flag) =>
      if spelling = ['-', c] then some (.option flag true (some rest)) else none
  | _ => []

def classify (arg : List Char) : Option Kind :=
  if arg.head? ≠ some '-' || arg = ['-'] then some .plain
  else match spellings.lookup arg, spellings.lookup (splitEquals arg).1 with
    | some flag, _ => some (.option flag (arg.length = 2) none)
    | none, some flag => some (.option flag ((splitEquals arg).1.length = 2) (splitEquals arg).2)
    | none, none =>
      match candidates arg with
      | [kind] => some kind
      | _ :: _ => none
      | [] => some (if Argument.isNegativeNumber arg || arg.contains ' ' then .plain else .unknown)

def kinds : List String → Option (List (String × Kind))
  | [] => some []
  | arg :: rest =>
    if arg = "--" then some ((arg, .separator) :: rest.map fun a => (a, .plain))
    else match classify arg.toList, kinds rest with
      | some kind, some others => some ((arg, kind) :: others)
      | _, _ => none

def withValue (o : Options) (flag : Flag) (value : String) : Option Options :=
  match flag with
  | .help => none
  | .headless => none
  | .preset => (Given.ofText? Preset.ofName? value).map fun preset => { o with preset }
  | .config => (Given.ofText? some value).map fun path => { o with config := some path }
  | .speed => (Given.ofText? Argument.int? value).map fun n => { o with speed := some n }
  | .scale => (Given.ofText? Argument.float? value).map fun v => { o with scale := some v }
  | .logLevel =>
    (Given.ofText? (fun name => LogLevel.all.find? (·.name = name)) value).map fun logLevel => { o with logLevel }

inductive FilePlace where
  | awaited
  | last
  | given
deriving DecidableEq

/-- A command line in the middle of being read. `waiting` is an option whose value comes next, and `extra`
tells whether there was an argument too many. -/
structure Reading where
  options : Options
  file : FilePlace
  waiting : Option Flag
  extra : Bool

def FilePlace.pass : FilePlace → FilePlace
  | .awaited => .awaited
  | _ => .given

/-- Read an option. Help ends the reading, and letters may be attached to its short spelling only if each of
them asks for help again. -/
def Reading.option (r : Reading) (flag : Flag) (short : Bool) (attached : Option (List Char)) :
    Except Parsed Reading :=
  let passed := { r with file := r.file.pass }
  match flag, attached with
  | .help, none => .error .help
  | .help, some letters =>
    .error (if short && !letters.isEmpty && letters.all (· = 'h') then .help else .rejected)
  | .headless, none => .ok { passed with options := { r.options with headless := true } }
  | flag, none => .ok { passed with waiting := some flag }
  | flag, some value =>
    match r.options.withValue flag (String.ofList value) with
    | some next => .ok { passed with options := next }
    | none => .error .rejected

/-- Read one argument. The first plain argument is the file, and the two dashes may stand on either side of
it. -/
def Reading.step (r : Reading) (arg : String × Kind) : Except Parsed Reading :=
  match r.waiting, arg with
  | some flag, (value, .plain) =>
    match r.options.withValue flag value with
    | some next => .ok { r with options := next, waiting := none }
    | none => .error .rejected
  | some _, _ => .error .rejected
  | none, (_, .unknown) => .ok { r with file := r.file.pass, extra := true }
  | none, (_, .option flag short attached) => r.option flag short attached
  | none, (text, .plain) =>
    if r.file = .awaited then .ok { r with options := { r.options with file := some text }, file := .last }
    else .ok { r with file := .given, extra := true }
  | none, (_, .separator) =>
    if r.file = .given then .ok { r with extra := true } else .ok { r with file := r.file.pass }

def read (args : List (String × Kind)) : Parsed :=
  match args.foldlM Reading.step ⟨.default, .awaited, none, false⟩ with
  | .error parsed => parsed
  | .ok r => if r.extra || r.waiting.isSome then .rejected else .options r.options

def ofArguments (args : List String) : Parsed :=
  match kinds args with
  | none => .rejected
  | some ks => read ks

end Options

end WireCut
