import OrderedBnf.Rule.Basic

/-!
# References between rules

The names that the terms of a table refer to, and those of them that no
rule of the table defines. A reference in a rule that is later defined
again counts like any other.
-/

namespace OrderedBnf

/-- The name that a term refers to, if it is a reference. Its suffix is of no
interest here. -/
def referenceOf (term : String) : Option String :=
  match Symbol.ofBase (Term.split term).1 with
  | .literal _ => none
  | .reference name => some name

/-- The terms of a table, rule by rule and alternative by alternative. -/
def allTerms (rules : List Rule) : List String :=
  rules.flatMap fun rule => rule.alternatives.flatten

/-- The names that a table refers to, as often as it does. -/
def referencedNames (rules : List Rule) : List String :=
  (allTerms rules).filterMap referenceOf

/-- **The names that are referred to and never defined**, each once, in the
order of their first use. -/
def undefinedNames (rules : List Rule) : List String :=
  ((referencedNames rules).filter fun name => !rules.any (·.name == name)).eraseDups

example : undefinedNames
    [⟨"start", [["missing", "\"x\"", "other*"], ["missing"]]⟩, ⟨"next", [["other", "start"]]⟩] =
    ["missing", "other"] := by decide

end OrderedBnf
