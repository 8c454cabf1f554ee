import OrderedBnf.Bnf.Compile
import OrderedBnf.Journal.Parsing
import OrderedBnf.Text.Quoted

/-!
# The journal of a compilation

What is written down while a BNF document is compiled: the parse of the
document, the terms of each alternative as they are read off the tree, the
rule for the end of a line if one is added, and the size of the table.

The terms of a list are noted once they are all there, so the innermost
list comes first. Reading stops at the first node that is missing, and what
was noted before it stands.
-/

namespace OrderedBnf

namespace Journal

/-- The entry for the terms that were read below a node. -/
def extracted (terms : List String) (text : String) : Entry :=
  ⟨.trace, "Extracted " ++ quotedList terms ++ " from `" ++ text ++ "`"⟩

/-- What an attempt adds to the journal when it succeeds. -/
def onSuccess {α : Type} (result : Except Fault α) (entries : α → List Entry) : List Entry :=
  match result with
  | .ok a => entries a
  | .error _ => []

mutual

/-- What is written down while the terms below a node are read. -/
def readingTerms : Node → List Entry
  | ⟨kind, text, start, stop, children, errors⟩ =>
    onSuccess (Bnf.ownTerms children) fun _ =>
      readingNested children ++
        onSuccess (Bnf.terms ⟨kind, text, start, stop, children, errors⟩) fun terms =>
          [extracted terms text]

/-- What is written down while the lists among some nodes are read. -/
def readingNested : List Node → List Entry
  | [] => []
  | node :: rest =>
    if node.kind == "list" then
      readingTerms node ++ onSuccess (Bnf.terms node) fun _ => readingNested rest
    else readingNested rest

end

/-- What is written down while nodes are read one by one, up to the first
that cannot be read. -/
def readingEach {α : Type} (read : Node → Except Fault α) (entries : Node → List Entry) :
    List Node → List Entry
  | [] => []
  | node :: rest =>
    entries node ++ onSuccess (read node) fun _ => readingEach read entries rest

/-- What is written down while a rule is read. -/
def readingRule (node : Node) : List Entry :=
  onSuccess (Bnf.requiredChild node "rule-name") fun _ =>
    onSuccess (Bnf.requiredChild node "firstExpression") fun first =>
      readingEach Bnf.terms readingTerms (first :: Bnf.laterAlternatives node)

/-- What is written down while the tree of a document is read. -/
def readingRules (tree : Node) : List Entry :=
  readingEach Bnf.ruleOf readingRule (tree.childrenOfKind "rule")

/-- The name of a shape in a journal. -/
def eolLabel : EolStyle → String
  | .together => "Compat"
  | .apart => "Alternatives"

/-- What is written down when the rules of a document are made a table. -/
def completing (eol : EolStyle) (rules : List Rule) : List Entry :=
  (if Bnf.definesEol rules then []
    else [⟨.debug, "No `EOL` rule defined, appending one (" ++ eolLabel eol ++ ")"⟩]) ++
  [⟨.debug, "Compiled " ++ toString (Bnf.withEol eol rules).length ++ " rules"⟩]

/-- What is written down after the parse of a document. -/
def afterParse (eol : EolStyle) (parse : Parse) : List Entry :=
  match parse.problems with
  | _ :: _ => []
  | [] => readingRules parse.root ++ onSuccess (Bnf.rulesOf parse.root) (completing eol)

/-- **What is written down when a document is compiled.** -/
def compiling (eol : EolStyle) (source : String) : List Entry :=
  match Bnf.parser.parse source with
  | none => []
  | some parse => parsed source parse :: afterParse eol parse

/-- What is written down when a parser is built from a document. -/
def buildingFrom (eol : EolStyle) (source : String) : List Entry :=
  compiling eol source ++
    match Bnf.compile eol source with
    | .ok rules => building rules
    | .error _ => []

end Journal

end OrderedBnf
