/-!
# Places in a text

An offset counts bytes of the UTF-8 form of a text, a `Position` counts
lines and the characters of a line, both from one. `Position.ofOffset`
goes from the first to the second. Only a line feed ends a line.

A report speaks of a position or of the source as a whole; `Location` is
one of the two.
-/

namespace OrderedBnf

/-- The number of bytes of a text in UTF-8. -/
def byteLength : List Char → Nat
  | [] => 0
  | c :: rest => c.utf8Size + byteLength rest

/-- A line and a column of it, counted from one. -/
structure Position where
  line : Nat
  column : Nat
deriving DecidableEq, Repr, Inhabited

namespace Position

/-- Where a text begins. -/
def start : Position := ⟨1, 1⟩

/-- The position behind a character. -/
def next (p : Position) (c : Char) : Position :=
  if c = '\n' then ⟨p.line + 1, 1⟩ else ⟨p.line, p.column + 1⟩

/-- The position reached when a text is read from `p` for as many whole
characters as fit into `bytes` bytes. -/
def advance (p : Position) : List Char → Nat → Position
  | [], _ => p
  | c :: rest, bytes =>
    if bytes < c.utf8Size then p else advance (p.next c) rest (bytes - c.utf8Size)

/-- **The position of an offset.** An offset behind the end counts as the
end, and one inside a character as the start of that character. -/
def ofOffset (text : String) (offset : Nat) : Position :=
  start.advance text.toList offset

instance : ToString Position where
  toString p := toString p.line ++ ":" ++ toString p.column

end Position

/-- What a report is about. -/
inductive Location
  /-- The source as a whole. -/
  | whole
  /-- One place in it. -/
  | point (position : Position)
deriving DecidableEq, Repr, Inhabited

instance : ToString Location where
  toString
    | .whole => "source"
    | .point p => toString p

example : Position.ofOffset "é=x" 3 = ⟨1, 3⟩ := by decide
example : Position.ofOffset "é" 1 = ⟨1, 1⟩ := by decide
example : Position.ofOffset "a\nb\n" 100 = ⟨3, 1⟩ := by decide
example : toString (Location.point ⟨3, 7⟩) = "3:7" := by decide

end OrderedBnf
