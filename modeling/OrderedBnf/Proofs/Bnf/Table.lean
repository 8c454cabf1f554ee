import OrderedBnf.Bnf.Metagrammar
import OrderedBnf.Proofs.Match.Lookup
import OrderedBnf.Proofs.Rule.Term

/-!
# The grammar of BNF, taken apart

The rules of BNF as the matcher sees them, with their terms decoded
(`grammar_eq`). No name is defined twice, so each of these definitions is the
one in force. Everything later reads the grammar through these equations.
-/

namespace OrderedBnf

namespace Bnf

/-- The grammar of the parser of documents. -/
def grammar : Grammar := Grammar.ofRules rules

/-- A reference with a repetition. -/
def refs (name : String) (r : Repetition) : Term := ⟨.reference name, r, name⟩

/-- A reference. -/
def ref (name : String) : Term := refs name .once

/-- A literal of one character, as written in the rules. -/
def mark (a : Char) (source : String) : Term := ⟨.literal [a], .once, source⟩

/-- Any number of spaces. -/
def spaces : Term := ⟨.literal [' '], .zeroOrMore, "\" \""⟩

/-- The sign between a rule's name and its alternatives. -/
def becomes : Term := ⟨.literal "::=".toList, .once, "\"::=\""⟩

/-- The definition of a class of characters. -/
def classOf (name characters : String) : Definition :=
  ⟨name, characters.toList.map fun a => [Term.ofSource (literalOf a)]⟩

/-- The character of a literal of one, in whatever way it is written. -/
theorem ofSource_literalOf (a : Char) : Term.ofSource (literalOf a) = mark a (literalOf a) := by
  unfold literalOf
  split
  · rename_i ha
    subst ha
    rfl
  · rename_i ha
    rw [Term.ofSource_of_isLiteral (by rfl)]
    have hplain : unescape [a] = [a] := by simp [unescape, ha]
    simp [mark, hplain]

/-! ## The definitions -/

/-- A document. -/
def syntaxDef : Definition :=
  ⟨"syntax", [[refs "RULE_EOL" .zeroOrMore, refs "rule" .oneOrMore]]⟩

/-- A rule, with its line. -/
def ruleDef : Definition :=
  ⟨"rule", [[spaces, mark '<' "\"<\"", ref "rule-name", mark '>' "\">\"", spaces, becomes,
    ref "firstExpression", refs "otherExpression" .zeroOrMore, spaces,
    refs "RULE_EOL" .oneOrMore, spaces]]⟩

/-- The first alternative of a rule. -/
def firstDef : Definition := ⟨"firstExpression", [[spaces, ref "list"]]⟩

/-- Any other. -/
def otherDef : Definition :=
  ⟨"otherExpression", [[spaces, mark '|' "\"|\"", spaces, ref "list"]]⟩

/-- An end of a line. -/
def eolDef : Definition :=
  ⟨"RULE_EOL", [[mark '\r' "\"\\r\""], [mark '\n' "\"\\n\""]]⟩

/-- A term and the terms behind it. -/
def listDef : Definition := ⟨"list", [[ref "term", spaces, ref "list"], [ref "term"]]⟩

/-- A term. -/
def termDef : Definition :=
  ⟨"term", [[ref "literal"], [mark '<' "\"<\"", ref "rule-name", mark '>' "\">\""]]⟩

/-- A literal, between quotes of either kind. -/
def literalDef : Definition :=
  ⟨"literal", [[mark '"' "'\"'", refs "RULE_CHARACTER1" .zeroOrMore, mark '"' "'\"'"],
    [mark '\'' "\"'\"", refs "RULE_CHARACTER2" .zeroOrMore, mark '\'' "\"'\""]]⟩

/-- A character that may stand in any literal. -/
def characterDef : Definition :=
  ⟨"RULE_CHARACTER", [[mark ' ' "\" \""], [ref "RULE_LETTER"], [ref "RULE_DIGIT"],
    [ref "RULE_SYMBOL"]]⟩

/-- An item of a literal, given the names of the rules for it and for an escape,
and the quote of the other kind. -/
def itemDef (item escape : String) (other : Char) (source : String) : Definition :=
  ⟨item, [[ref escape], [ref "RULE_CHARACTER"], [mark other source]]⟩

/-- An escape, given the name of its rule and the quote that it may be of. -/
def escapeDef (escape : String) (quote : Char) (source : String) : Definition :=
  ⟨escape, [[mark '\\' "\"\\\\\"", mark '\\' "\"\\\\\""],
    [mark '\\' "\"\\\\\"", mark quote source]]⟩

/-- A name. -/
def nameDef : Definition := ⟨"rule-name", [[ref "RULE_LETTER", refs "RULE_CHAR" .zeroOrMore]]⟩

/-- A character of a name. -/
def charDef : Definition :=
  ⟨"RULE_CHAR", [[ref "RULE_LETTER"], [ref "RULE_DIGIT"], [mark '_' "\"_\""],
    [mark '-' "\"-\""]]⟩

/-! ## The definitions in force -/

/-- **The grammar of BNF**, with its terms decoded. -/
theorem grammar_eq : grammar =
    [syntaxDef, ruleDef, firstDef, otherDef, eolDef, listDef, termDef, literalDef, characterDef,
      classOf "RULE_LETTER" letters, classOf "RULE_DIGIT" digits, classOf "RULE_SYMBOL" symbols,
      itemDef "RULE_CHARACTER1" "RULE_ESCAPE1" '\'' "\"'\"", escapeDef "RULE_ESCAPE1" '"' "'\"'",
      itemDef "RULE_CHARACTER2" "RULE_ESCAPE2" '"' "'\"'", escapeDef "RULE_ESCAPE2" '\'' "\"'\"",
      nameDef, charDef] := by
  decide +kernel

theorem nodup_names : (grammar.map Definition.name).Nodup := by
  decide +kernel

theorem find_of_mem {d : Definition} {name : String} (hd : d ∈ grammar) (hname : d.name = name) :
    grammar.find? name = some d := by
  rw [← hname]
  exact Grammar.find?_of_mem nodup_names hd

theorem find_syntax : grammar.find? "syntax" = some syntaxDef :=
  find_of_mem (by simp [grammar_eq]) rfl

theorem find_rule : grammar.find? "rule" = some ruleDef :=
  find_of_mem (by simp [grammar_eq]) rfl

theorem find_first : grammar.find? "firstExpression" = some firstDef :=
  find_of_mem (by simp [grammar_eq]) rfl

theorem find_other : grammar.find? "otherExpression" = some otherDef :=
  find_of_mem (by simp [grammar_eq]) rfl

theorem find_eol : grammar.find? "RULE_EOL" = some eolDef :=
  find_of_mem (by simp [grammar_eq]) rfl

theorem find_list : grammar.find? "list" = some listDef :=
  find_of_mem (by simp [grammar_eq]) rfl

theorem find_term : grammar.find? "term" = some termDef :=
  find_of_mem (by simp [grammar_eq]) rfl

theorem find_literal : grammar.find? "literal" = some literalDef :=
  find_of_mem (by simp [grammar_eq]) rfl

theorem find_name : grammar.find? "rule-name" = some nameDef :=
  find_of_mem (by simp [grammar_eq]) rfl

theorem find_character : grammar.find? "RULE_CHARACTER" = some characterDef :=
  find_of_mem (by simp [grammar_eq]) rfl

theorem find_char : grammar.find? "RULE_CHAR" = some charDef :=
  find_of_mem (by simp [grammar_eq]) rfl

theorem find_letter : grammar.find? "RULE_LETTER" = some (classOf "RULE_LETTER" letters) :=
  find_of_mem (by simp [grammar_eq]) rfl

theorem find_digit : grammar.find? "RULE_DIGIT" = some (classOf "RULE_DIGIT" digits) :=
  find_of_mem (by simp [grammar_eq]) rfl

theorem find_symbol : grammar.find? "RULE_SYMBOL" = some (classOf "RULE_SYMBOL" symbols) :=
  find_of_mem (by simp [grammar_eq]) rfl

end Bnf

end OrderedBnf
