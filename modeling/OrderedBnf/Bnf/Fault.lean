import OrderedBnf.Text.Line
import OrderedBnf.Text.Position

/-!
# Faults of a BNF document

Why a source is not compiled, the wording of each reason, and the form in
which it is shown together with the place that it concerns.
-/

namespace OrderedBnf

/-- Why a source is not compiled to a table of rules. -/
inductive Fault
  /-- No beginning of the source is a BNF document. -/
  | unreadable (source : String)
  /-- A beginning of the source is one, and there is a problem with the rest. -/
  | rejected (problem : String)
  /-- A node that every tree of a document has is missing from its tree. -/
  | missingNode (kind : String)
deriving DecidableEq, Repr, Inhabited

/-- The wording of a fault. -/
def Fault.message : Fault → String
  | unreadable source =>
    "Could not parse `" ++ String.ofList (firstLine source.toList) ++
      (if hasMoreLines source.toList then " ..." else "") ++ "`"
  | rejected problem => problem
  | missingNode kind =>
    "Parse tree has no `" ++ kind ++
      "` node (this is a problem with bootbnf, not the grammar)"

/-- A fault and what it concerns. -/
structure CompileError where
  location : Location
  fault : Fault
deriving DecidableEq, Repr, Inhabited

/-- An error as a terminal shows it: the place in bold red, and behind it
the wording in bold. -/
protected def CompileError.toString (e : CompileError) : String :=
  "\x1b[31;49;1m[" ++ toString e.location ++ "]\x1b[39;49;1m  " ++ e.fault.message ++ "\x1b[0m"

instance : ToString CompileError := ⟨CompileError.toString⟩

example : (Fault.unreadable "<s> ::= \n<t> ::= \"x\"\n").message =
    "Could not parse `<s> ::=  ...`" := by decide

end OrderedBnf
