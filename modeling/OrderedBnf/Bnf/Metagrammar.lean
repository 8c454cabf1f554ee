import OrderedBnf.Parse.Parser

/-!
# The grammar of BNF

BNF as a table of rules of the same form that a grammar written in BNF is
compiled to. It says more with suffixes than BNF itself can say: a document
is any number of line ends and then rules; a rule is a name between angle
brackets, `::=`, and alternatives with `|` between them; an alternative is a
list of terms; and a term is a literal or a name between angle brackets.

Spaces may stand around all of these, but a rule stands on one line, and
one line end or more come behind it.

The escapes of a literal are tried before its plain characters, so that a
backslash is never taken for a plain character in front of the quote that
it escapes.
-/

namespace OrderedBnf

namespace Bnf

/-- A character as a literal. -/
def literalOf (c : Char) : String :=
  String.ofList (if c = '\\' then ['"', '\\', '\\', '"'] else ['"', c, '"'])

/-- A rule that matches any one of some characters. -/
def anyOf (name : String) (characters : String) : Rule :=
  ⟨name, characters.toList.map fun c => [literalOf c]⟩

/-- The letters that names are made of. -/
def letters : String := "ABCDEFGHIJKLMNOPQRSTUVWXYZabcdefghijklmnopqrstuvwxyz"

/-- The digits. -/
def digits : String := "0123456789"

/-- What else a literal may hold besides a space and the two quotes. -/
def symbols : String := "-_!#$%&()*+,./:;<=>?@[\\]^`\x7b|\x7d~"

/-- **The grammar of BNF.** -/
def rules : List Rule :=
  [ ⟨"syntax", [["RULE_EOL*", "rule+"]]⟩,
    ⟨"rule",
      [["\" \"*", "\"<\"", "rule-name", "\">\"", "\" \"*", "\"::=\"", "firstExpression",
        "otherExpression*", "\" \"*", "RULE_EOL+", "\" \"*"]]⟩,
    ⟨"firstExpression", [["\" \"*", "list"]]⟩,
    ⟨"otherExpression", [["\" \"*", "\"|\"", "\" \"*", "list"]]⟩,
    ⟨"RULE_EOL", [["\"\\r\""], ["\"\\n\""]]⟩,
    ⟨"list", [["term", "\" \"*", "list"], ["term"]]⟩,
    ⟨"term", [["literal"], ["\"<\"", "rule-name", "\">\""]]⟩,
    ⟨"literal",
      [["'\"'", "RULE_CHARACTER1*", "'\"'"], ["\"'\"", "RULE_CHARACTER2*", "\"'\""]]⟩,
    ⟨"RULE_CHARACTER", [["\" \""], ["RULE_LETTER"], ["RULE_DIGIT"], ["RULE_SYMBOL"]]⟩,
    anyOf "RULE_LETTER" letters,
    anyOf "RULE_DIGIT" digits,
    anyOf "RULE_SYMBOL" symbols,
    ⟨"RULE_CHARACTER1", [["RULE_ESCAPE1"], ["RULE_CHARACTER"], ["\"'\""]]⟩,
    ⟨"RULE_ESCAPE1", [["\"\\\\\"", "\"\\\\\""], ["\"\\\\\"", "'\"'"]]⟩,
    ⟨"RULE_CHARACTER2", [["RULE_ESCAPE2"], ["RULE_CHARACTER"], ["'\"'"]]⟩,
    ⟨"RULE_ESCAPE2", [["\"\\\\\"", "\"\\\\\""], ["\"\\\\\"", "\"'\""]]⟩,
    ⟨"rule-name", [["RULE_LETTER", "RULE_CHAR*"]]⟩,
    ⟨"RULE_CHAR", [["RULE_LETTER"], ["RULE_DIGIT"], ["\"_\""], ["\"-\""]]⟩ ]

/-- The parser of BNF documents. -/
def parser : Parser := Parser.ofRules rules ParserOptions.standard

end Bnf

end OrderedBnf
