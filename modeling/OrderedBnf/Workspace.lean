import OrderedBnf.Journal.Compiling

/-!
# Workspaces

Work on a grammar goes in steps. A workspace holds the table that is being
worked on and the parser that was last built from it. The parser keeps the
table it was built from, however the table changes afterwards, and a
document that does not compile leaves the table as it is.

`Workspace.step` carries out a step and answers it, and
`Workspace.journal` says what is written down meanwhile.
-/

namespace OrderedBnf

/-- A table of rules and a parser. -/
structure Workspace where
  table : List Rule
  parser : Option Parser
deriving DecidableEq, Repr, Inhabited

/-- Something to do in a workspace. -/
inductive Step
  /-- Take the table from a document. -/
  | compile (eol : EolStyle) (source : String)
  /-- Write the table out and take it from what was written. -/
  | recompile (eol : EolStyle)
  | setRules (rules : List Rule)
  /-- Add a rule behind the others. -/
  | pushRule (rule : Rule)
  | removeRule (index : Nat)
  | showRules
  /-- List the names that the table refers to and does not define. -/
  | listUndefined
  /-- Build a parser from the table. -/
  | build (options : ParserOptions)
  | showOptions
  /-- Parse a text from the rule of a name, or else from the start rule. -/
  | parse (text : String) (start : Option String)
deriving DecidableEq, Repr, Inhabited

/-- What a step comes to. -/
inductive Answer
  | compiled (rules : List Rule)
  /-- The new table, and whether it is the old one. -/
  | recompiled (same : Bool) (rules : List Rule)
  | failed (error : CompileError)
  /-- The size of the table. -/
  | counted (count : Nat)
  /-- The rule that was removed, and how many are left. -/
  | removed (rule : Rule) (count : Nat)
  | noSuchRule
  | shown (rules : List Rule)
  | undefined (names : List String)
  | options (options : ParserOptions)
  | parsed (result : Option Parse)
  /-- There is no parser yet. -/
  | noParser
deriving DecidableEq, Repr, Inhabited

namespace Workspace

/-- A workspace without rules and without a parser. -/
def empty : Workspace := ⟨[], none⟩

/-- Parses with the start rule of the parser, or with another one. -/
def parseWith (p : Parser) (text : String) : Option String → Option Parse
  | some start => p.parseFrom text start
  | none => p.parse text

/-- Takes the table from a compilation, if there is one. -/
def take (w : Workspace) (answer : List Rule → Answer) :
    Except CompileError (List Rule) → Answer × Workspace
  | .ok rules => (answer rules, { w with table := rules })
  | .error e => (.failed e, w)

/-- **Carries out a step.** -/
def step (w : Workspace) : Step → Answer × Workspace
  | .compile eol source => w.take .compiled (Bnf.compile eol source)
  | .recompile eol =>
    w.take (fun rules => .recompiled (rules == w.table) rules)
      (Bnf.compile eol (Rule.showTable w.table))
  | .setRules rules => (.counted rules.length, { w with table := rules })
  | .pushRule rule =>
    (.counted (w.table.length + 1), { w with table := w.table ++ [rule] })
  | .removeRule index =>
    match w.table[index]? with
    | some rule =>
      (.removed rule (w.table.eraseIdx index).length, { w with table := w.table.eraseIdx index })
    | none => (.noSuchRule, w)
  | .showRules => (.shown w.table, w)
  | .listUndefined => (.undefined (undefinedNames w.table), w)
  | .build options =>
    (.options options, { w with parser := some (Parser.ofRules w.table options) })
  | .showOptions =>
    match w.parser with
    | some p => (.options p.options, w)
    | none => (.noParser, w)
  | .parse text start =>
    match w.parser with
    | some p => (.parsed (parseWith p text start), w)
    | none => (.noParser, w)

/-- What is written down while a step is carried out. -/
def journal (w : Workspace) : Step → List Entry
  | .compile eol source => Journal.compiling eol source
  | .recompile eol => Journal.compiling eol (Rule.showTable w.table)
  | .build _ => Journal.building w.table
  | .parse text start =>
    match w.parser, start with
    | some p, some start => Journal.parsingFrom p text start
    | some p, none => Journal.parsing p text
    | none, _ => []
  | _ => []

/-- The answers to some steps, each carried out where the one before left off. -/
def answers (w : Workspace) : List Step → List Answer
  | [] => []
  | s :: rest => (w.step s).1 :: (w.step s).2.answers rest

/-- What is written down while some steps are carried out. -/
def journalAll (w : Workspace) : List Step → List Entry
  | [] => []
  | s :: rest => w.journal s ++ (w.step s).2.journalAll rest

end Workspace

end OrderedBnf
