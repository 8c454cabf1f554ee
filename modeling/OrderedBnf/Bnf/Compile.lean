import OrderedBnf.Bnf.Metagrammar
import OrderedBnf.Bnf.Reading

/-!
# Compiling BNF

`compile` turns a BNF document into a table of rules, in the order in which
they are written, or says what is wrong with it. The first problem of the
document ends the matter.

A table always has a rule `EOL` for the end of a line. Where the document
has none, one is added behind the others, in one of two shapes.
-/

namespace OrderedBnf

/-- The shape of a rule `EOL` that is added. -/
inductive EolStyle
  /-- One alternative, with all the line ends in a row: it matches nothing
  shorter than the three together. -/
  | together
  /-- An alternative for each line end. -/
  | apart
deriving DecidableEq, Repr, Inhabited

namespace Bnf

/-- The name of the rule for the end of a line. -/
def eolName : String := "EOL"

/-- The line ends, each as a literal. -/
def lineEnds : List String := ["\"\\r\\n\"", "\"\\r\"", "\"\\n\""]

/-- The rule for the end of a line that a table is given when it has none. -/
def eolRule : EolStyle → Rule
  | .together => ⟨eolName, [lineEnds]⟩
  | .apart => ⟨eolName, lineEnds.map fun terminator => [terminator]⟩

/-- Whether a table has a rule for the end of a line. -/
def definesEol (rules : List Rule) : Bool := rules.any (·.name == eolName)

/-- A table with a rule for the end of a line. -/
def withEol (eol : EolStyle) (rules : List Rule) : List Rule :=
  if definesEol rules then rules else rules ++ [eolRule eol]

/-- What a document is read as, once it is parsed. -/
def ofParse (parse : Parse) : Except CompileError (List Rule) :=
  match parse.problems with
  | problem :: _ => .error ⟨problem.location, .rejected problem.message⟩
  | [] => (rulesOf parse.root).mapError fun fault => ⟨.whole, fault⟩

/-- The rules that are written in a document. -/
def writtenRules (source : String) : Except CompileError (List Rule) :=
  match parser.parse source with
  | none => .error ⟨.whole, .unreadable source⟩
  | some parse => ofParse parse

/-- **Compiles a BNF document**: the rules that are written in it, and a rule
for the end of a line. -/
def compile (eol : EolStyle) (source : String) : Except CompileError (List Rule) :=
  (writtenRules source).map (withEol eol)

/-- The parser for the language of a BNF document. -/
def buildParser (eol : EolStyle) (source : String) (options : ParserOptions) :
    Except CompileError Parser :=
  (compile eol source).map fun rules => Parser.ofRules rules options

end Bnf

/-! ## The rule that is added -/

example : Bnf.withEol .apart [⟨"a", [["'x'"]]⟩] =
    [⟨"a", [["'x'"]]⟩, ⟨"EOL", [["\"\\r\\n\""], ["\"\\r\""], ["\"\\n\""]]⟩] := by decide

end OrderedBnf
