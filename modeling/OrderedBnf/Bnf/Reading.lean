import OrderedBnf.Bnf.Fault
import OrderedBnf.Rule.Basic
import OrderedBnf.Tree.Node

/-!
# Reading rules off a tree

The tree of a BNF document has a `rule` node for each rule of it. This
module turns such a tree into a table.

The terms of an alternative form a chain: a `list` holds one `term` and at
most one further `list`. So at each level only the immediate children are
read, the terms first and then the lists, each in order. Literals are kept
with their quotes, and references without their angle brackets.
-/

namespace OrderedBnf

namespace Bnf

/-- The text of a term: that of its literal, or else that of its name. -/
def termText (term : Node) : Except Fault String :=
  match (term.childOfKind? "literal").or (term.childOfKind? "rule-name") with
  | some node => .ok node.text
  | none => .error (.missingNode "literal or rule-name")

/-- The texts of the terms among some nodes. -/
def ownTerms (nodes : List Node) : Except Fault (List String) :=
  (nodes.filter (·.kind == "term")).mapM termText

mutual

/-- **The terms below a node**, its own before those of the lists in it. -/
def terms : Node → Except Fault (List String)
  | ⟨_, _, _, _, children, _⟩ => do
    let own ← ownTerms children
    let nested ← nestedTerms children
    return own ++ nested

/-- The terms below those of some nodes that are lists. -/
def nestedTerms : List Node → Except Fault (List String)
  | [] => .ok []
  | node :: rest =>
    if node.kind == "list" then do
      let here ← terms node
      let later ← nestedTerms rest
      return here ++ later
    else nestedTerms rest

end

/-- The child of a kind that every node of its sort has. -/
def requiredChild (node : Node) (kind : String) : Except Fault Node :=
  match node.childOfKind? kind with
  | some child => .ok child
  | none => .error (.missingNode kind)

/-- The nodes of the alternatives of a rule, after the first. -/
def laterAlternatives (node : Node) : List Node := node.childrenOfKind "otherExpression"

/-- The rule that a `rule` node stands for. -/
def ruleOf (node : Node) : Except Fault Rule := do
  let name ← requiredChild node "rule-name"
  let first ← requiredChild node "firstExpression"
  let alternatives ← (first :: laterAlternatives node).mapM terms
  return ⟨name.text, alternatives⟩

/-- The table that the tree of a document stands for. -/
def rulesOf (tree : Node) : Except Fault (List Rule) :=
  (tree.childrenOfKind "rule").mapM ruleOf

end Bnf

end OrderedBnf
