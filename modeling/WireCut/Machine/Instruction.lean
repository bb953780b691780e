/-! Instructions: the codes that the machine knows. -/
namespace WireCut

inductive Instruction where
  | cut
  | arc (clockwise : Bool)
  | absolute
  | relative
  | setOrigin
  | finish
deriving DecidableEq

/-- The instruction of a code in capitals. Codes have two digits, and any other spelling is unknown. -/
def Instruction.ofCode? (code : String) : Option Instruction :=
  match code with
  | "G01" => some .cut
  | "G02" => some (.arc true)
  | "G03" => some (.arc false)
  | "G90" => some .absolute
  | "G91" => some .relative
  | "G92" => some .setOrigin
  | "M02" => some .finish
  | _ => none

end WireCut
