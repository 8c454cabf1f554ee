import OrderedBnf.Rule.Term

/-!
# Rules

A rule gives a name its alternatives, in the order in which they are to be
tried, and an alternative is a list of terms in the form in which they are
written. A table of rules is a list of them; a name may be defined more
than once.

`Rule.toString` writes a rule in BNF: references between angle brackets,
literals as they stand, and suffixes behind either.
-/

namespace OrderedBnf

/-- A name and its alternatives, each a list of terms as written. -/
structure Rule where
  name : String
  alternatives : List (List String)
deriving DecidableEq, Repr, Inhabited

namespace Rule

/-- A term as it stands in a rule that is written out. -/
def showTerm (term : String) : String :=
  match (Term.ofSource term).symbol with
  | .literal _ => term
  | .reference name => "<" ++ name ++ ">" ++ (Term.ofSource term).repetition.suffix

/-- The terms of an alternative, with a space between them. -/
def showAlternative (terms : List String) : String :=
  " ".intercalate (terms.map showTerm)

/-- A rule written out on one line. -/
protected def toString (rule : Rule) : String :=
  "<" ++ rule.name ++ "> ::= " ++ " | ".intercalate (rule.alternatives.map showAlternative)

instance : ToString Rule := ⟨Rule.toString⟩

/-- A table written out, a line for each rule. -/
def showTable (rules : List Rule) : String :=
  String.join (rules.map fun rule => rule.toString ++ "\n")

end Rule

example : toString (Rule.mk "list" [["term", "\" \"*", "list"], ["term"]]) =
    "<list> ::= <term> \" \"* <list> | <term>" := by decide
example : toString (Rule.mk "document" [["RULE_EOL*", "rule+"]]) =
    "<document> ::= <RULE_EOL>* <rule>+" := by decide
example : toString (Rule.mk "empty" []) = "<empty> ::= " := by decide

end OrderedBnf
