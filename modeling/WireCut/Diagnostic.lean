import WireCut.Number.Decimal

/-! Diagnostics: what is wrong with a program, and where. They are kept in the order in which they were
found, and are listed by position. -/
namespace WireCut

inductive DiagnosticKind where
  | spelling
  | meaning
  | motion
deriving DecidableEq

def DiagnosticKind.name : DiagnosticKind → String
  | .spelling => "syntax"
  | .meaning => "semantic"
  | .motion => "runtime"

inductive Severity where
  | warning
  | error
deriving DecidableEq

def Severity.name : Severity → String
  | .warning => "warning"
  | .error => "error"

/-- A problem with its line and its columns from `start` up to `stop`, all counted from zero. -/
structure Diagnostic where
  line : Int
  start : Int
  stop : Int
  message : String
  kind : DiagnosticKind
  severity : Severity
deriving DecidableEq

namespace Diagnostic

/-- The text of a diagnostic. A reader counts lines from one. -/
def text (d : Diagnostic) : String :=
  "Line " ++ Decimal.intText (d.line + 1) ++ ": " ++ d.message

def notAfter (a b : Diagnostic) : Bool :=
  a.line < b.line || (a.line = b.line && a.start ≤ b.start)

/-- The diagnostics by position. Those at one position keep their order. -/
def sorted (ds : List Diagnostic) : List Diagnostic :=
  ds.mergeSort notAfter

def ofLine (ds : List Diagnostic) (line : Int) : List Diagnostic :=
  ds.filter (·.line = line)

def any (ds : List Diagnostic) (severity : Severity) : Bool :=
  List.any ds (·.severity = severity)

theorem mem_sorted {ds : List Diagnostic} {d : Diagnostic} : d ∈ sorted ds ↔ d ∈ ds :=
  (List.mergeSort_perm ds notAfter).mem_iff

end Diagnostic

end WireCut
