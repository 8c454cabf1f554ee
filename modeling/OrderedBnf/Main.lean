import OrderedBnf.Command.Run

/-!
# The program

Runs the command line on the files of the disk.
-/

namespace OrderedBnf

namespace Disk

/-- The number of a refusal, which may come with its sign turned. -/
def numberOf (number : UInt32) : Nat :=
  if number.toNat < 0x80000000 then number.toNat else 0x100000000 - number.toNat

/-- A refusal by its number, in the wording of the system where that is known. -/
def refusalOf (number : UInt32) (wording : String) : ReadFault :=
  (ReadFault.known.find? (·.number == some (numberOf number))).getD
    (.system wording (numberOf number))

/-- How a refusal of the operating system is worded. -/
def refusal : IO.Error → ReadFault
  | .noFileOrDirectory _ number wording => refusalOf number wording
  | .inappropriateType _ number wording => refusalOf number wording
  | .permissionDenied _ number wording => refusalOf number wording
  | .invalidArgument _ number wording => refusalOf number wording
  | .resourceExhausted _ number wording => refusalOf number wording
  | .otherError number wording => refusalOf number wording
  | e => .system (toString e) 0

/-- The text of the file at a path. -/
def read (path : String) : IO (Except ReadFault String) := do
  try
    return textOfBytes (← IO.FS.readBinFile path)
  catch e =>
    return .error (refusal e)

end Disk

end OrderedBnf

open OrderedBnf

def main (arguments : List String) : IO UInt32 := do
  let outcome ← Command.run Disk.read arguments
  IO.print outcome.stdout
  IO.eprint outcome.stderr
  return outcome.status.toUInt32
