import WireCut.Json.Reader
import WireCut.Settings.Profile
import WireCut.Text.File

/-! Profiles from files. Unknown keys are ignored, and the limits have to be usable. -/
namespace WireCut

inductive ProfileError where
  | unreadable (reason : FileError)
  | malformed
  | longInteger (digits : Nat)
  | tooDeep (reason : DepthError)
  | notAnObject
  | unordered
  | notPositive (setting : Setting)
  | zoomLimits
deriving DecidableEq

def ProfileError.message? : ProfileError → Option String
  | .longInteger digits =>
    some ("Exceeds the limit (" ++ Decimal.digitText Literal.maxIntegerDigits
      ++ " digits) for integer string conversion: value has " ++ Decimal.digitText digits
      ++ " digits; use sys.set_int_max_str_digits() to increase the limit")
  | .tooDeep reason => some reason.message
  | .notAnObject => some "top-level JSON value must be an object"
  | .notPositive s => some (s.key ++ " must be positive")
  | .zoomLimits => some "zoom limits must satisfy 0 < min_zoom <= max_zoom"
  | _ => none

namespace Profile

/-- A setting has to be a number above zero. A value that is not a number at all passes if it is the float
of that name. -/
def checkPositive (p : Profile) (s : Setting) : Except ProfileError Unit :=
  match (p s).number? with
  | none => .error .unordered
  | some v => if v.le (Exact.ofInt 0) then .error (.notPositive s) else .ok ()

/-- The zoom limits have to be above zero and in order. The upper one is looked at last. -/
def checkZoom (p : Profile) : Except ProfileError Unit :=
  match (p .minZoom).number? with
  | none => .error .unordered
  | some low =>
    if !(Exact.ofInt 0).lt low then .error .zoomLimits
    else match (p .maxZoom).number? with
      | none => .error .unordered
      | some high => if low.le high then .ok () else .error .zoomLimits

def validate (p : Profile) : Except ProfileError Unit := do
  p.checkPositive .minSpeed
  p.checkPositive .scale
  p.checkPositive .arcStepDegrees
  p.checkZoom

def ofText (cs : List Char) : Except ProfileError Profile :=
  match Json.read cs with
  | .error .malformed => .error .malformed
  | .error (.longInteger digits) => .error (.longInteger digits)
  | .error (.tooDeep container) => .error (.tooDeep (.reading container))
  | .ok (.obj fields) => (ofFields fields).validate.map fun _ => ofFields fields
  | .ok _ => .error .notAnObject

def load (file : FileContent) : Except ProfileError Profile :=
  match file.text with
  | .error reason => .error (.unreadable reason)
  | .ok cs => ofText cs

/-- The profile in a file, or the standard one if the file gives none. A file that is nested too deeply is no
reason for the standard one. -/
def loadOrDefault (file : FileContent) : Except DepthError Profile :=
  match load file with
  | .ok p => .ok p
  | .error (.tooDeep reason) => .error reason
  | .error _ => .ok .default

end Profile

end WireCut
