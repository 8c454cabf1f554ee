import OrderedBnf.Text.Blank

/-!
# The first line of a text

A report that quotes a text keeps to its first line and says whether there
is more. A line ends at a line feed, and a carriage return right before the
line feed belongs to the end of the line.
-/

namespace OrderedBnf

/-- The first line of a text, without its end. -/
def firstLine (text : List Char) : List Char :=
  let line := text.takeWhile (· != '\n')
  if text.contains '\n' && line.getLast? == some '\r' then line.dropLast else line

/-- Whether anything but blanks follows the first line feed of a text. -/
def hasMoreLines (text : List Char) : Bool := (trimEnd text).contains '\n'

example : firstLine "a\r\nb".toList = "a".toList := by decide
example : firstLine "a\r".toList = "a\r".toList := by decide
example : hasMoreLines "a\n \n".toList = false := by decide
example : hasMoreLines "a\nb".toList = true := by decide

end OrderedBnf
