import OrderedBnf.Match.Event

/-!
# The furthest failure

When a text is not matched to its end, the best thing to say about it is
which literals were tried where matching got furthest. `Progress` keeps
that much of a run: the largest offset at which a literal was missed, the
literals missed there in the order of their first failure, and whether a
rule was ever left out for want of a level.

Attempts that were given up count like all others.
-/

namespace OrderedBnf

/-- What is remembered of the events of a run. -/
structure Progress where
  /-- The largest offset at which a literal was missed, at first the start. -/
  furthest : Nat
  /-- The literals missed there, as written, each once. -/
  expected : List String
  /-- Whether the limit on levels was ever reached. -/
  tooDeep : Bool
deriving DecidableEq, Repr, Inhabited

namespace Progress

/-- Before anything happens. -/
def start : Progress := ⟨0, [], false⟩

/-- After a literal is missed at an offset. A failure further on makes the
earlier ones irrelevant, and one that is not as far is irrelevant itself. -/
def miss (p : Progress) (offset : Nat) (source : String) : Progress :=
  if p.furthest < offset then { p with furthest := offset, expected := [source] }
  else if offset = p.furthest ∧ source ∉ p.expected then
    { p with expected := p.expected ++ [source] }
  else p

/-- The observer that keeps the furthest failure. -/
def note : Observer Progress := fun p event =>
  match event with
  | .miss offset source => p.miss offset source
  | .tooDeep _ _ => { p with tooDeep := true }
  | _ => p

end Progress

end OrderedBnf
