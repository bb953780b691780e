import WireCut.Text.Line

/-! What stands at a path, and the text of a file. -/
namespace WireCut

inductive FileError where
  | missing
  | directory
  | encoding
  | longName
  | nullCharacter
deriving DecidableEq

def FileError.message : FileError → String
  | .missing => "no such file"
  | .directory => "is a directory"
  | .encoding => "not valid UTF-8"
  | .longName => "name too long"
  | .nullCharacter => "embedded null byte"

/-- What stands at a path: nothing, a directory, or a file with its bytes. Some paths lead nowhere. -/
inductive FileContent where
  | missing
  | directory
  | bytes (data : ByteArray)
  | unreachable (reason : FileError)

/-- The text of a file in UTF-8, with every line end as one line feed. -/
def FileContent.text : FileContent → Except FileError (List Char)
  | .missing => .error .missing
  | .directory => .error .directory
  | .unreachable reason => .error reason
  | .bytes data =>
    match String.fromUTF8? data with
    | none => .error .encoding
    | some text => .ok (Text.unifyLineEnds text.toList)

end WireCut
