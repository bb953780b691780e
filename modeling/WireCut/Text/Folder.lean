import WireCut.Text.File

/-! A folder with files and further folders in it, and the paths that lead through it. A path is followed name
by name, so that every name but the last one has to be a folder. -/
namespace WireCut

/-- Where a path leads: the number of folders above the starting folder, and the names down from there. -/
structure Place where
  above : Nat
  names : List String
deriving DecidableEq

namespace Place

def here : Place := ⟨0, []⟩

def parent (p : Place) : Place :=
  if p.names.isEmpty then ⟨p.above + 1, []⟩ else ⟨p.above, p.names.dropLast⟩

/-- One name further. An empty name and a single dot stay, and two dots go back. -/
def enter (p : Place) (name : String) : Place :=
  if name = "" || name = "." then p
  else if name = ".." then p.parent
  else ⟨p.above, p.names ++ [name]⟩

end Place

structure Folder where
  entries : List (Place × FileContent)

namespace Folder

def maxName : Nat := 255

def maxPath : Nat := 4095

def ofFiles (files : List (String × FileContent)) : Folder :=
  ⟨files.map fun (name, content) => ((name.splitOn "/").foldl Place.enter .here, content)⟩

/-- What stands at a place. The starting folder and those above it are always there, and so are those on the
way to a file. -/
def content (f : Folder) (p : Place) : FileContent :=
  match f.entries.lookup p with
  | some content => content
  | none =>
    if p.names.isEmpty || f.entries.any (fun (q, _) => q.above = p.above && p.names.isPrefixOf q.names) then
      .directory
    else .missing

def follow (f : Folder) (p : Place) : List String → Except FileError Place
  | [] => .ok p
  | name :: rest =>
    match f.content p with
    | .directory => if maxName < name.utf8ByteSize then .error .longName else follow f (p.enter name) rest
    | _ => .error .missing

/-- The place that a path leads to. Nothing is known of the world outside but its root. -/
def locate (f : Folder) (path : String) : Except FileError Place :=
  let names := path.splitOn "/"
  if path.contains '\x00' then .error .nullCharacter
  else if maxPath < path.utf8ByteSize then .error .longName
  else if !path.startsWith "/" then f.follow .here names
  else if names.all (fun name => name = "" || name = "." || name = "..") then .ok ⟨1, []⟩
  else .error .missing

def read (f : Folder) (path : String) : FileContent :=
  match f.locate path with
  | .ok p => f.content p
  | .error reason => .unreachable reason

def write (f : Folder) (path : String) (data : ByteArray) : Except FileError Folder :=
  match f.locate path with
  | .error reason => .error reason
  | .ok p =>
    match f.content p with
    | .directory => .error .directory
    | _ => .ok ⟨(p, .bytes data) :: f.entries.filter (·.1 ≠ p)⟩

end Folder

end WireCut
