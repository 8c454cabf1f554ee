/-!
# Terms

A rule is written with terms, and a term is a piece of text: a **literal**
between quotes, or the bare **name** of a rule, and either of them may
carry a repetition suffix. This module takes such a text apart.

`Term.split` separates the suffix, `Symbol.ofBase` classifies what is left
and decodes the escapes of a literal, and `Term.ofSource` does both. A
suffix only counts after something it can repeat: `"*"` is a literal star,
while `" "*` is any number of spaces.
-/

namespace OrderedBnf

/-- How often a term's symbol is to be matched. -/
inductive Repetition
  | once
  | optional
  | zeroOrMore
  | oneOrMore
deriving DecidableEq, Repr, Inhabited

namespace Repetition

/-- The suffix that asks for a repetition. -/
def suffix : Repetition → String
  | once => ""
  | optional => "?"
  | zeroOrMore => "*"
  | oneOrMore => "+"

/-- The repetition that a character asks for when it stands as a suffix. -/
def ofSuffix? : Char → Option Repetition
  | '?' => some optional
  | '*' => some zeroOrMore
  | '+' => some oneOrMore
  | _ => none

end Repetition

/-! ## Literals and names -/

/-- The two characters that may enclose a literal. -/
def isQuote (c : Char) : Bool := c == '"' || c == '\''

/-- A literal begins with a quote and ends with the same quote, a second one. -/
def isLiteral : List Char → Bool
  | [] => false
  | q :: body => isQuote q && body.getLast? == some q

/-- A name is any text that is not empty and does not begin with a quote. -/
def isName : List Char → Bool
  | [] => false
  | c :: _ => !isQuote c

/-- The character that stands behind a backslash, decoded. -/
def escaped : Char → Char
  | 'r' => '\r'
  | 'n' => '\n'
  | 't' => '\t'
  | c => c

/-- The text that the body of a literal denotes. A backslash joins the
character behind it; one with nothing behind it stands for itself. -/
def unescape : List Char → List Char
  | [] => []
  | ['\\'] => ['\\']
  | '\\' :: c :: rest => escaped c :: unescape rest
  | c :: rest => c :: unescape rest

/-- What a term refers to, its suffix aside. -/
inductive Symbol
  /-- Text to be found in the input. -/
  | literal (text : List Char)
  /-- The name of a rule. -/
  | reference (name : String)
deriving DecidableEq, Repr, Inhabited

/-- **Quoting alone makes a literal.** Everything else is a reference, also
a quote that is never closed. -/
def Symbol.ofBase (base : String) : Symbol :=
  if isLiteral base.toList then .literal (unescape base.toList.tail.dropLast)
  else .reference base

/-! ## Terms -/

/-- A term, taken apart once so that matching never reads its text again. -/
structure Term where
  symbol : Symbol
  repetition : Repetition
  /-- The text of the term without its suffix, as reported when it is missed. -/
  source : String
deriving DecidableEq, Repr, Inhabited

namespace Term

/-- What precedes a suffix must be a literal or a name. -/
def isBase (text : List Char) : Bool := isLiteral text || isName text

/-- Separates a repetition suffix from the characters of a term. -/
def splitChars (term : List Char) : List Char × Repetition :=
  match term.getLast?.bind Repetition.ofSuffix? with
  | some r => if isBase term.dropLast then (term.dropLast, r) else (term, .once)
  | none => (term, .once)

/-- Separates a repetition suffix from a term. -/
def split (term : String) : String × Repetition :=
  ((String.ofList (splitChars term.toList).1), (splitChars term.toList).2)

/-- The term that a text denotes. -/
def ofSource (term : String) : Term :=
  { symbol := Symbol.ofBase (split term).1
    repetition := (split term).2
    source := (split term).1 }

end Term

/-! ## Concrete terms -/

example : Term.split "RULE_EOL*" = ("RULE_EOL", .zeroOrMore) := by decide
example : Term.split "'x'+" = ("'x'", .oneOrMore) := by decide
example : Term.split "\"*\"" = ("\"*\"", .once) := by decide
example : Term.split "\"*" = ("\"*", .once) := by decide
example : Term.split "*" = ("*", .once) := by decide
example : Symbol.ofBase "\"\\r\\n\"" = .literal ['\r', '\n'] := by decide
example : Symbol.ofBase "\"\\\\\"" = .literal ['\\'] := by decide
example : Symbol.ofBase "\"open" = .reference "\"open" := by decide

end OrderedBnf
