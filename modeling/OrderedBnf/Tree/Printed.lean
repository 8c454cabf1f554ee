import OrderedBnf.Text.Quoted
import OrderedBnf.Tree.Node

/-!
# Trees in print

A tree is printed a line to a node: two spaces for each level, the kind of
the node, and its text between quotes. A quoted text never holds the end of
a line, so the lines of the output are the nodes of the tree.
-/

namespace OrderedBnf

namespace Node

/-- The line of a node at a depth. -/
def line (depth : Nat) (node : Node) : String :=
  String.ofList (List.replicate (2 * depth) ' ') ++ node.kind ++ " " ++ quoted node.text ++ "\n"

/-- A tree, printed. -/
protected def toString (node : Node) : String :=
  String.join (node.preorder.map fun (depth, n) => n.line depth)

instance : ToString Node := ⟨Node.toString⟩

end Node

example : toString (Node.mk "list" "a b" 0 3
    [⟨"term", "a", 0, 1, [], []⟩, ⟨"list", "b", 2, 3, [⟨"term", "b", 2, 3, [], []⟩], []⟩] []) =
    "list \"a b\"\n  term \"a\"\n  list \"b\"\n    term \"b\"\n" := by decide +kernel

end OrderedBnf
