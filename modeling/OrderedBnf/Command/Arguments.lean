import OrderedBnf.Bnf.Compile

/-!
# Arguments of the command line

The command line names a grammar file and may ask for a text to be parsed
with it. Arguments are read from left to right. The first of them that
cannot be right settles the matter, and so does a call for the version or
for help, whatever follows it.

An option takes its value from behind `=`, from the rest of a short option,
or from the next argument; the next argument must not look like an option.
A lone `-` is an ordinary text, and so is everything behind `--`.
-/

namespace OrderedBnf

/-- What the command line asks to be done. -/
structure Request where
  /-- The path of the grammar. -/
  grammar : String
  /-- The path of a text to parse with it. -/
  input : Option String
  /-- The rule to start from. -/
  start : Option String
  /-- The shape of a rule `EOL` that has to be added. -/
  eol : EolStyle
  /-- How many rules may be under way at once. -/
  maxDepth : Nat
deriving DecidableEq, Repr, Inhabited

/-- The options that take a value. -/
inductive ValueOption
  | input
  | start
  | maxDepth
deriving DecidableEq, Repr, Inhabited

/-- The name of an option. -/
def ValueOption.name : ValueOption → String
  | input => "--input"
  | start => "--start"
  | maxDepth => "--max-depth"

/-- Why the arguments cannot be right. -/
inductive UsageFault
  | missingGrammar
  | unexpected (argument : String)
  | repeated (option : String)
  | missingValue (option : String)
  | emptyPath (argument : String)
  | invalidDepth (value : String)
deriving DecidableEq, Repr, Inhabited

/-- The wording of a usage fault. -/
def UsageFault.message : UsageFault → String
  | missingGrammar => "no grammar file is given"
  | unexpected argument => "unexpected argument '" ++ argument ++ "'"
  | repeated option => "'" ++ option ++ "' is given twice"
  | missingValue option => "'" ++ option ++ "' needs a value"
  | emptyPath argument => "the path given for '" ++ argument ++ "' is empty"
  | invalidDepth value => "'" ++ value ++ "' is not a depth"

/-- What a command line comes to when it can be right. -/
inductive Invocation
  | run (request : Request)
  | version
  | help
deriving DecidableEq, Repr, Inhabited

namespace Arguments

/-! ## Single arguments -/

/-- What an argument is, looked at by itself. -/
inductive Item
  /-- A text that is no option. -/
  | plain (text : String)
  /-- An option that takes a value, and the value if it is attached. -/
  | valued (option : ValueOption) (attached : Option String)
  | splitEol
  | version
  | help
  /-- From here on every argument is a text. -/
  | endOfOptions
  | unknown
deriving DecidableEq, Repr, Inhabited

/-- The part of a text behind its first `=`. -/
def behindEquals (text : List Char) : Option String :=
  match text.dropWhile (· != '=') with
  | [] => none
  | _ :: value => some (String.ofList value)

/-- A long option, given what stands behind its dashes. -/
def long (text : List Char) : Item :=
  match String.ofList (text.takeWhile (· != '=')), behindEquals text with
  | "", none => .endOfOptions
  | "input", value => .valued .input value
  | "start", value => .valued .start value
  | "max-depth", value => .valued .maxDepth value
  | "split-eol", none => .splitEol
  | "version", none => .version
  | "help", none => .help
  | _, _ => .unknown

/-- What is attached to a short option; an `=` in front is not part of it. -/
def attached : List Char → Option String
  | [] => none
  | '=' :: value => some (String.ofList value)
  | value => some (String.ofList value)

/-- A short option, given what stands behind its dash. -/
def short : List Char → Item
  | 'i' :: rest => .valued .input (attached rest)
  | 's' :: rest => .valued .start (attached rest)
  | 'V' :: _ => .version
  | 'h' :: _ => .help
  | _ => .unknown

/-- What an argument is. -/
def item (argument : String) : Item :=
  match argument.toList with
  | '-' :: '-' :: rest => long rest
  | '-' :: c :: rest => short (c :: rest)
  | _ => .plain argument

/-- Whether an argument can be the value of the option before it. -/
def isValue (argument : String) : Bool :=
  match item argument with
  | .plain _ => true
  | _ => false

/-- The largest depth that can be asked for. -/
def maxDepthBound : Nat := 18446744073709551615

/-- The number that a text of decimal digits denotes. -/
def decimal (digits : List Char) : Nat :=
  digits.foldl (fun n c => 10 * n + (c.toNat - '0'.toNat)) 0

/-- A depth: decimal digits, perhaps behind a plus sign, of a number that is
not too large. -/
def depth? (text : String) : Option Nat :=
  let digits := match text.toList with
    | '+' :: rest => rest
    | rest => rest
  if digits.isEmpty || !digits.all Char.isDigit then none
  else if decimal digits ≤ maxDepthBound then some (decimal digits)
  else none

/-! ## All arguments -/

/-- What the arguments have said so far. -/
structure Heard where
  grammar : Option String
  input : Option String
  start : Option String
  splitEol : Bool
  maxDepth : Option Nat
deriving DecidableEq, Repr, Inhabited

namespace Heard

/-- Before any argument. -/
def nothing : Heard := ⟨none, none, none, false, none⟩

/-- Takes in a text that is no option. -/
def plain (h : Heard) (text : String) : Except UsageFault Heard :=
  if h.grammar.isSome then .error (.unexpected text)
  else if text = "" then .error (.emptyPath "FILE")
  else .ok { h with grammar := some text }

/-- Takes in the value of an option. -/
def value (h : Heard) (option : ValueOption) (text : String) : Except UsageFault Heard :=
  match option with
  | .input =>
    if h.input.isSome then .error (.repeated option.name)
    else if text = "" then .error (.emptyPath option.name)
    else .ok { h with input := some text }
  | .start =>
    if h.start.isSome then .error (.repeated option.name)
    else .ok { h with start := some text }
  | .maxDepth =>
    if h.maxDepth.isSome then .error (.repeated option.name)
    else match depth? text with
      | some depth => .ok { h with maxDepth := some depth }
      | none => .error (.invalidDepth text)

/-- Takes in the option that splits an added rule `EOL`. -/
def split (h : Heard) : Except UsageFault Heard :=
  if h.splitEol then .error (.repeated "--split-eol") else .ok { h with splitEol := true }

/-- What is to be done when no argument is left. -/
def finish (h : Heard) : Except UsageFault Invocation :=
  match h.grammar with
  | none => .error .missingGrammar
  | some grammar =>
    .ok (.run
      { grammar, input := h.input, start := h.start
        eol := if h.splitEol then .apart else .together
        maxDepth := h.maxDepth.getD ParserOptions.defaultMaxDepth })

end Heard

/-- Takes in arguments behind `--`, all of them texts. -/
def readPlain (h : Heard) : List String → Except UsageFault Invocation
  | [] => h.finish
  | text :: rest => (h.plain text).bind fun h => readPlain h rest

/-- Takes in arguments from left to right. -/
def read (h : Heard) : List String → Except UsageFault Invocation
  | [] => h.finish
  | argument :: rest =>
    match item argument with
    | .plain text => (h.plain text).bind fun h => read h rest
    | .splitEol => h.split.bind fun h => read h rest
    | .version => .ok .version
    | .help => .ok .help
    | .endOfOptions => readPlain h rest
    | .unknown => .error (.unexpected argument)
    | .valued option (some text) => (h.value option text).bind fun h => read h rest
    | .valued option none =>
      match rest with
      | [] => .error (.missingValue option.name)
      | text :: rest =>
        if isValue text then (h.value option text).bind fun h => read h rest
        else .error (.missingValue option.name)

/-- **What the arguments ask for.** -/
def parse (arguments : List String) : Except UsageFault Invocation :=
  read Heard.nothing arguments

end Arguments

/-! ## Concrete command lines -/

example : (Arguments.parse ["g.bnf", "-i", "in.txt", "--split-eol", "--max-depth=+020"]).toOption =
    some (.run ⟨"g.bnf", some "in.txt", none, .apart, 20⟩) := by decide +kernel
example : (Arguments.parse ["g.bnf", "-s=", "-"]).toOption = none := by decide +kernel
example : (Arguments.parse ["-V", "--bogus"]).toOption = some .version := by decide +kernel

end OrderedBnf
