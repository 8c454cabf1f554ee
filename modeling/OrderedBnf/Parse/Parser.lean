import OrderedBnf.Match.Body
import OrderedBnf.Parse.Problem
import OrderedBnf.Parse.Progress

/-!
# Parsers

A parser is a grammar with a choice of start rule and a limit on how deeply
rules may nest. Parsing yields a tree when the start rule matches a
beginning of the text, and nothing otherwise. The tree begins with a node
of the start rule, also when that is a fragment.

The problems stand at the root of the tree: first the input that was left
over, then the limit, if it was reached.
-/

namespace OrderedBnf

/-- How to parse. -/
structure ParserOptions where
  /-- The rule to start from; without it, the first of the table. -/
  start : Option String
  /-- How many rules may be under way at once. -/
  maxDepth : Nat
deriving DecidableEq, Repr, Inhabited

namespace ParserOptions

/-- How many rules may be under way at once, unless told otherwise. -/
def defaultMaxDepth : Nat := 1000

/-- The options of a parser that is told nothing. -/
def standard : ParserOptions := ⟨none, defaultMaxDepth⟩

end ParserOptions

/-- A tree that a text was parsed to. -/
structure Parse where
  root : Node
deriving DecidableEq, Repr, Inhabited

/-- What there is to report about a parse is what its root carries. -/
abbrev Parse.problems (parse : Parse) : List Problem := parse.root.errors

/-- A grammar, and how to parse with it. -/
structure Parser where
  grammar : Grammar
  options : ParserOptions
deriving DecidableEq, Repr, Inhabited

namespace Parser

/-- The parser for a table of rules. -/
def ofRules (rules : List Rule) (options : ParserOptions) : Parser :=
  ⟨Grammar.ofRules rules, options⟩

/-- The rule that a parse starts from, unless told otherwise: the one of the
options, or else the first. -/
def start? (p : Parser) : Option String :=
  p.options.start.or (p.grammar.head?.map (·.name))

/-- The problem of input left over behind the offset `stop`, reported where
matching got furthest. The literals tried there are listed, unless the match
itself went on past them. -/
def leftover (text : List Char) (stop : Nat) (p : Progress) : Problem :=
  let place := max p.furthest stop
  .unexpectedInput (Position.start.advance text place)
    (Problem.excerpt (text.drop (takeBytes place text).length))
    (if stop ≤ p.furthest then p.expected else [])

/-- The problems of a match of a text that stopped at `stop`. -/
def problems (limit : Nat) (text : List Char) (stop : Cursor) (p : Progress) : List Problem :=
  (if stop.rest.isEmpty then [] else [leftover text stop.offset p]) ++
    (if p.tooDeep then [.tooDeep limit] else [])

/-- The parse that a match of the definition `d` amounts to. -/
def finish (limit : Nat) (text : List Char) (d : Definition) (m : Match) (p : Progress) : Parse :=
  ⟨⟨d.name, String.ofList ((Cursor.start text).upTo m.stop.offset), 0, m.stop.offset, m.nodes,
    problems limit text m.stop p⟩⟩

/-- Matches the body of a definition from the start of a text. -/
def run (p : Parser) (text : List Char) (d : Definition) : Option Match × Progress :=
  p.grammar.body Progress.note p.options.maxDepth d (Cursor.start text) Progress.start

/-- Parses a text from a definition. -/
def parseDefinition (p : Parser) (text : List Char) (d : Definition) : Option Parse :=
  match p.run text d with
  | (none, _) => none
  | (some m, progress) => some (finish p.options.maxDepth text d m progress)

/-- Parses a text from the rule of a name. A name without a definition
matches nothing. -/
def parseFrom (p : Parser) (text : String) (start : String) : Option Parse :=
  (p.grammar.find? start).bind (p.parseDefinition text.toList)

/-- **Parses a text** from the start rule. -/
def parse (p : Parser) (text : String) : Option Parse :=
  p.start?.bind (p.parseFrom text)

end Parser

/-! ## Concrete parses -/

example : (Parser.ofRules [⟨"start", [["item", "\";\""], ["item", "\".\""]]⟩,
      ⟨"item", [["\"x\""]]⟩] .standard).parse "x." =
    some ⟨⟨"start", "x.", 0, 2, [⟨"item", "x", 0, 1, [], []⟩], []⟩⟩ := by decide +kernel
example : (Parser.ofRules [⟨"lines", [["line+"]]⟩,
      ⟨"line", [["\"a\"", "\";\"", "\"\\n\""]]⟩] .standard).parse "a;\na,\n" =
    some ⟨⟨"lines", "a;\n", 0, 3, [⟨"line", "a;\n", 0, 3, [], []⟩],
      [.unexpectedInput ⟨2, 2⟩ "," ["\";\""]]⟩⟩ := by decide +kernel

end OrderedBnf
