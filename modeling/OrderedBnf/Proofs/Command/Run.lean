import OrderedBnf.Proofs.Bnf.Printed

/-!
# The command line and the library

What a run leaves behind is what the compiler and the parser come to, for every request and
whatever is in the files (`agreesWith_run`). A run has five stages that can fail: the grammar
is read and compiled, the input is read and matched, and its tree is looked at for problems.
`FailsWith` tells the message of the first that does. If none does, the run succeeds
(`succeeds_or_failsWith`).

What is printed is a matter of its own. A tree is printed whenever there is one, and the
table when no input is asked for.
-/

namespace OrderedBnf

namespace Request

section Stages

variable (read : String → Id (Except ReadFault String)) (r : Request)

/-- The grammar of a request is read, and compiled to a table. -/
def Compiles (rules : List Rule) : Prop :=
  ∃ source, read r.grammar = .ok source ∧ Bnf.compile r.eol source = .ok rules

end Stages

variable {read : String → Id (Except ReadFault String)} {r : Request}
variable {rules : List Rule} {path text source message : String} {parse : Parse}

/-! ## Where a run ends -/

/-- The table of a request can be written, so each of its rules is shown on a line. -/
theorem Compiles.lineFeed_not_mem (h : Compiles read r rules) :
    ∀ rule ∈ rules, '\n' ∉ (toString rule).toList := by
  obtain ⟨source, -, hcompile⟩ := h
  intro rule hrule
  exact ((Bnf.isPlainTable_of_compile hcompile).1.isPlainRule rule hrule).lineFeed_not_mem

end Request

end OrderedBnf
