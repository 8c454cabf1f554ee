import OrderedBnf.Rule.Basic

/-!
# Grammars

A grammar is a table of rules made ready for matching, with every term
taken apart. A name means its last definition: `Grammar.find?` passes over
the ones before it.

A rule whose name is written in capitals is a **fragment**. What it matches
belongs to the rule that refers to it, and it leaves no node of its own.
-/

namespace OrderedBnf

/-- A rule with its terms taken apart. -/
structure Definition where
  name : String
  alternatives : List (List Term)
deriving DecidableEq, Repr, Inhabited

namespace Definition

/-- The definition that a rule gives. -/
def ofRule (rule : Rule) : Definition :=
  ⟨rule.name, rule.alternatives.map fun terms => terms.map Term.ofSource⟩

/-- The characters of which the name of a fragment is made. -/
def isCapital (c : Char) : Bool := c.isUpper || c.isDigit || c == '_'

/-- A name in capitals, with one letter or more among them. -/
def isFragmentName (name : String) : Bool :=
  name.toList.any Char.isUpper && name.toList.all isCapital

/-- Whether what a definition matches is left to the rule that refers to it. -/
def isFragment (d : Definition) : Bool := isFragmentName d.name

end Definition

/-- The definitions of a table, in its order. -/
abbrev Grammar := List Definition

namespace Grammar

/-- The definitions that a table gives. -/
def ofRules (rules : List Rule) : Grammar := rules.map Definition.ofRule

/-- **The definition in force for a name** is the last one. -/
def find? (name : String) : Grammar → Option Definition
  | [] => none
  | d :: rest => (find? name rest).or (if d.name == name then some d else none)

end Grammar

example : Definition.isFragmentName "RULE_CHARACTER1" = true := by decide
example : Definition.isFragmentName "Rule" = false := by decide
example : Definition.isFragmentName "_1" = false := by decide

end OrderedBnf
