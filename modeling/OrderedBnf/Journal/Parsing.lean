import OrderedBnf.Journal.Entry
import OrderedBnf.Parse.Parser
import OrderedBnf.Rule.References

/-!
# The journal of a parser

What is written down when a parser is built and when it parses. A table
that refers to names it never defines is worth a warning for each, and so
is a start rule that does not exist. A parse is noted when it has a tree.
-/

namespace OrderedBnf

namespace Journal

/-- The entry for a name that is referred to and never defined. -/
def undefinedName (name : String) : Entry :=
  ⟨.warn, "Nonterminal `" ++ name ++ "` is referenced but never defined"⟩

/-- The entry for a start rule that does not exist. -/
def undefinedStart (name : String) : Entry :=
  ⟨.warn, "Start rule `" ++ name ++ "` is not defined"⟩

/-- The entry for a parse of a text. -/
def parsed (text : String) (parse : Parse) : Entry :=
  ⟨.debug, "Parsed " ++ toString parse.root.stop ++ " of " ++ toString (byteLength text.toList) ++
    " bytes from `" ++ parse.root.kind ++ "` with " ++ toString parse.problems.length ++ " errors"⟩

/-- What is written down when a parser is built from a table. -/
def building (rules : List Rule) : List Entry :=
  (undefinedNames rules).map undefinedName

/-- What is written down when a text is parsed from the rule of a name. -/
def parsingFrom (p : Parser) (text : String) (start : String) : List Entry :=
  match p.grammar.find? start with
  | none => [undefinedStart start]
  | some _ => (p.parseFrom text start).toList.map (parsed text)

/-- What is written down when a text is parsed from the start rule. -/
def parsing (p : Parser) (text : String) : List Entry :=
  match p.start? with
  | none => []
  | some start => parsingFrom p text start

end Journal

end OrderedBnf
