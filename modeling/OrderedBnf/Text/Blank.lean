/-!
# Blank characters

The characters that Unicode counts as white space. They matter where the
end of a text is examined: blanks at the end of a text do not count as
more text.
-/

namespace OrderedBnf

/-- The intervals of code points that are white space, both ends included. -/
def blanks : List (Nat × Nat) :=
  [(0x9, 0xd), (0x20, 0x20), (0x85, 0x85), (0xa0, 0xa0), (0x1680, 0x1680), (0x2000, 0x200a),
   (0x2028, 0x2029), (0x202f, 0x202f), (0x205f, 0x205f), (0x3000, 0x3000)]

/-- Whether a character is white space. -/
def isBlank (c : Char) : Bool :=
  blanks.any fun (first, last) => first ≤ c.toNat && c.toNat ≤ last

/-- A text without the blanks at its end. -/
def trimEnd (text : List Char) : List Char :=
  (text.reverse.dropWhile isBlank).reverse

example : (blanks.map fun (first, last) => last - first + 1).sum = 25 := by decide
example : trimEnd "a b\n \u3000".toList = "a b".toList := by decide

end OrderedBnf
