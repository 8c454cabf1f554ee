/-!
# Journal entries

What a step tells whoever keeps a journal of the work: a level, from the
most to the least pressing, and a message.
-/

namespace OrderedBnf

/-- How pressing an entry is. -/
inductive Level
  | warn
  | debug
  | trace
deriving DecidableEq, Repr, Inhabited

/-- The name of a level as a journal shows it. -/
def Level.label : Level → String
  | warn => "WARN"
  | debug => "DEBUG"
  | trace => "TRACE"

/-- A message in a journal. -/
structure Entry where
  level : Level
  message : String
deriving DecidableEq, Repr, Inhabited

end OrderedBnf
