import OrderedBnf.Text.Position

/-!
# Files

Reading a file gives its text or a reason why there is none. The reasons
are worded as the operating system words them, with their numbers; a file
whose bytes are no text has a wording of its own.

`Directory` is a folder held in memory, in which the path of a file means
what it means in a folder on a disk.
-/

namespace OrderedBnf

/-- Why a file has no text. -/
inductive ReadFault
  /-- The operating system refuses, with its wording and its number. -/
  | system (wording : String) (number : Nat)
  /-- The bytes are not UTF-8. -/
  | notText
deriving DecidableEq, Repr, Inhabited

namespace ReadFault

/-- There is no such file. -/
def missing : ReadFault := system "No such file or directory" 2

/-- A file stands where a path needs a directory. -/
def notDirectory : ReadFault := system "Not a directory" 20

/-- A directory stands where a file is to be read. -/
def isDirectory : ReadFault := system "Is a directory" 21

/-- A path, or a part of it, is longer than it can be. -/
def nameTooLong : ReadFault := system "File name too long" 36

/-- The number of a fault, if the operating system gave it one. -/
def number : ReadFault → Option Nat
  | system _ number => some number
  | notText => none

/-- The refusals that are commonly met. -/
def known : List ReadFault :=
  [missing, system "Permission denied" 13, notDirectory, isDirectory, nameTooLong]

/-- The wording of a fault. -/
def message : ReadFault → String
  | system wording number => wording ++ " (os error " ++ toString number ++ ")"
  | notText => "stream did not contain valid UTF-8"

end ReadFault

/-- The text of a file with the given bytes. -/
def textOfBytes (bytes : ByteArray) : Except ReadFault String :=
  match String.fromUTF8? bytes with
  | some text => .ok text
  | none => .error .notText

/-! ## A folder in memory -/

/-- A folder with no folder in it: the names of its files, and their bytes. -/
abbrev Directory := List (String × ByteArray)

namespace Directory

/-- The most bytes that a name can have. -/
def nameLimit : Nat := 255

/-- The most bytes that a path can have. -/
def pathLimit : Nat := 4095

/-- The parts of a path, between its slashes. -/
def parts : List Char → List (List Char)
  | [] => [[]]
  | '/' :: rest => [] :: parts rest
  | c :: rest =>
    match parts rest with
    | [] => [[c]]
    | first :: later => (c :: first) :: later

/-- Follows the parts of a path that has left the folder. Nothing is known
there but that it is a directory, like whatever is above it. -/
def resolveOutside : List (List Char) → ReadFault
  | [] => .isDirectory
  | [] :: rest => resolveOutside rest
  | ['.'] :: rest => resolveOutside rest
  | ['.', '.'] :: rest => resolveOutside rest
  | name :: _ => if nameLimit < byteLength name then .nameTooLong else .missing

/-- Follows the parts of a path from the folder. -/
def resolve (files : Directory) : List (List Char) → Except ReadFault ByteArray
  | [] => .error .isDirectory
  | [] :: rest => resolve files rest
  | ['.'] :: rest => resolve files rest
  | ['.', '.'] :: rest => .error (resolveOutside rest)
  | name :: rest =>
    if nameLimit < byteLength name then .error .nameTooLong
    else match files.lookup (String.ofList name) with
      | none => .error .missing
      | some bytes => if rest.isEmpty then .ok bytes else .error .notDirectory

/-- The bytes of the file at a path, which may begin at the root. -/
def bytesAt (files : Directory) (path : List Char) : Except ReadFault ByteArray :=
  if pathLimit < byteLength path then .error .nameTooLong
  else match path with
    | [] => .error .missing
    | '/' :: rest => .error (resolveOutside (parts rest))
    | _ => resolve files (parts path)

/-- The text of the file at a path. -/
def read (files : Directory) (path : String) : Except ReadFault String :=
  (files.bytesAt path.toList).bind textOfBytes

end Directory

end OrderedBnf
