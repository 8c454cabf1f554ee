import OrderedBnf.Command.Arguments
import OrderedBnf.Command.Files
import OrderedBnf.Tree.Printed

/-!
# Running the command line

A run compiles a grammar file. By itself it prints the table, a rule to a
line; with an input file it parses the text and prints the tree. The stages
come in a fixed order: the grammar is read and compiled, the input is read,
and it is parsed. The first that fails is reported, and nothing after it
happens. A tree with problems is printed first and reported then.

How a file is read is left open, so that a run can be considered apart from
any disk; and so is how a command line is taken apart, which is a matter of
`Arguments` alone.
-/

namespace OrderedBnf

/-- What a run leaves behind. -/
structure Outcome where
  status : Nat
  stdout : String
  stderr : String
deriving DecidableEq, Repr, Inhabited

namespace Outcome

/-- A run in which nothing failed. -/
def success (stdout : String) : Outcome := ⟨0, stdout, ""⟩

/-- A message as a terminal shows it, in bold red and on a line of its own. -/
def alert (message : String) : String := "\x1b[31;49;1m" ++ message ++ "\x1b[0m\n"

/-- A run that printed something and then failed. -/
def failure (stdout message : String) : Outcome := ⟨1, stdout, alert message⟩

end Outcome

namespace Request

/-- A message about a file. -/
def about (path message : String) : String := path ++ ": " ++ message

/-- The report of a problem with the text of a file. -/
def report (path : String) (problem : Problem) : String :=
  match problem.location with
  | .whole => about path problem.message
  | .point position => about (path ++ ":" ++ toString position) problem.message

/-- The reports of all problems, a line each. -/
def reports (path : String) (problems : List Problem) : String :=
  "\n".intercalate (problems.map (report path))

/-- The outcome of parsing the text of the file `path`. -/
def finishParse (path : String) : Option Parse → Outcome
  | none => .failure "" (about path "input does not match the grammar")
  | some parse =>
    match parse.problems with
    | [] => .success (toString parse.root)
    | problem :: more => .failure (toString parse.root) (reports path (problem :: more))

/-- How the request wants its input parsed. -/
def parserOptions (r : Request) : ParserOptions := ⟨r.start, r.maxDepth⟩

/-- **Carries out a request**, with `read` to read a file. -/
def run {m : Type → Type} [Monad m] (read : String → m (Except ReadFault String))
    (r : Request) : m Outcome := do
  match ← read r.grammar with
  | .error e => return .failure "" (about r.grammar e.message)
  | .ok source =>
    match Bnf.compile r.eol source with
    | .error e => return .failure "" (about r.grammar (toString e))
    | .ok rules =>
      match r.input with
      | none => return .success (Rule.showTable rules)
      | some path =>
        match ← read path with
        | .error e => return .failure "" (about path e.message)
        | .ok text =>
          return finishParse path ((Parser.ofRules rules r.parserOptions).parse text)

end Request

namespace Command

/-- The line that tells the version. -/
def versionLine : String := "bootbnf 0.1.0\n"

/-- What a call for help prints. -/
def helpText : String :=
  "Compiles BNF grammars into rule tables for a backtracking parser\n\n" ++
  "Usage: bootbnf [OPTIONS] <FILE>\n\n" ++
  "Arguments:\n" ++
  "  <FILE>  File containing the BNF grammar\n\n" ++
  "Options:\n" ++
  "  -i, --input <FILE>       Parse this file with the compiled grammar and print the tree\n" ++
  "  -s, --start <SYMBOL>     Start symbol for --input (default: first in the grammar)\n" ++
  "      --split-eol          Give a synthesized EOL rule one alternative per line terminator\n" ++
  "      --max-depth <DEPTH>  How deeply rules may nest while parsing --input [default: 1000]\n" ++
  "  -h, --help               Print help\n" ++
  "  -V, --version            Print version\n"

/-- The outcome of arguments that cannot be right. -/
def usageFailure (fault : UsageFault) : Outcome :=
  ⟨2, "", "error: " ++ fault.message ++ "\n\nFor more information, try '--help'.\n"⟩

/-- **Carries out a command line**, with `parse` to take it apart and `read` to
read a file. -/
def runWith {m : Type → Type} [Monad m] (parse : List String → Except UsageFault Invocation)
    (read : String → m (Except ReadFault String)) (arguments : List String) : m Outcome :=
  match parse arguments with
  | .error fault => pure (usageFailure fault)
  | .ok .version => pure (.success versionLine)
  | .ok .help => pure (.success helpText)
  | .ok (.run request) => request.run read

/-- Carries out a command line of the program. -/
def run {m : Type → Type} [Monad m] (read : String → m (Except ReadFault String))
    (arguments : List String) : m Outcome :=
  runWith Arguments.parse read arguments

end Command

end OrderedBnf
