import OrderedBnf.Text.Position

/-!
# Cursors

A place in a text that is being matched: the characters that are still to
come, and the number of bytes that lie behind. Whether a match succeeds
depends on the first alone; the second is for reports and for the ends of
nodes.
-/

namespace OrderedBnf

/-- A place in a text. -/
structure Cursor where
  /-- The bytes behind the cursor. -/
  offset : Nat
  /-- The characters in front of it. -/
  rest : List Char
deriving DecidableEq, Repr, Inhabited

/-- The longest beginning of a text that fits into a number of bytes. -/
def takeBytes (bytes : Nat) : List Char → List Char
  | [] => []
  | c :: rest => if bytes < c.utf8Size then [] else c :: takeBytes (bytes - c.utf8Size) rest

namespace Cursor

/-- The cursor before a text. -/
def start (text : List Char) : Cursor := ⟨0, text⟩

/-- The cursor behind `text`, if that is what comes next. -/
def advance? (c : Cursor) (text : List Char) : Option Cursor :=
  (text.isPrefixOf? c.rest).map fun rest => ⟨c.offset + byteLength text, rest⟩

/-- The characters from a cursor up to an offset further on. -/
def upTo (c : Cursor) (stop : Nat) : List Char := takeBytes (stop - c.offset) c.rest

end Cursor

end OrderedBnf
