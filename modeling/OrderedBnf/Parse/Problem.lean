import OrderedBnf.Text.Position

/-!
# Problems of a parse

A parse that reached a tree may still have something to report: the tree
ends before the text does, or the limit on levels was reached on the way,
so that the tree may not be the one that the grammar asks for.
-/

namespace OrderedBnf

/-- Something to report about a tree. -/
inductive Problem
  /-- Matching stopped. At the place where it got furthest stand the
  characters `found`, and `expected` are the literals that it tried there. -/
  | unexpectedInput (position : Position) (found : String) (expected : List String)
  /-- A rule was left out because `limit` others were under way. -/
  | tooDeep (limit : Nat)
deriving DecidableEq, Repr, Inhabited

namespace Problem

/-- The most characters of a text that a report quotes. -/
def excerptLength : Nat := 20

/-- What a report quotes of the text behind a place: the rest of its line,
or the beginning of it. -/
def excerpt (rest : List Char) : String :=
  String.ofList ((rest.takeWhile fun c => c != '\n' && c != '\r').take excerptLength)

/-- How an excerpt is named, also when the line is at its end. -/
def nameExcerpt (found : String) : String :=
  if found = "" then "end of line" else "`" ++ found ++ "`"

/-- The wording of a problem. -/
def message : Problem → String
  | unexpectedInput _ found [] => "Unexpected input " ++ nameExcerpt found
  | unexpectedInput _ found (e :: es) =>
    "Unexpected input " ++ nameExcerpt found ++ ", expected one of " ++ ", ".intercalate (e :: es)
  | tooDeep limit => "Rules nested deeper than " ++ toString limit ++ " levels"

/-- What a problem is about. -/
def location : Problem → Location
  | unexpectedInput position _ _ => .point position
  | tooDeep _ => .whole

end Problem

example : (Problem.unexpectedInput ⟨2, 2⟩ "," ["\";\""]).message =
    "Unexpected input `,`, expected one of \";\"" := by decide
example : (Problem.unexpectedInput ⟨1, 1⟩ "" []).message =
    "Unexpected input end of line" := by decide

end OrderedBnf
