import OrderedBnf.Match.Grammar
import OrderedBnf.Match.Matcher

/-!
# Matching a rule

The matcher of a grammar. `Grammar.body` matches the alternatives of a
definition, `Grammar.reference` looks a name up, matches what it finds and
puts a node around it, and `Grammar.term` repeats a symbol.

Rules may refer to each other in any way, also to themselves without
reading anything, so the number of rules that may be under way at once is
limited: a body that finds no level left fails. The recursion is on that
number.
-/

namespace OrderedBnf

namespace Match

/-- The match of a definition that began at `c`: in a node of its own, unless
the definition is a fragment. -/
def wrap (d : Definition) (c : Cursor) (m : Match) : Match :=
  if d.isFragment then m
  else ⟨m.stop,
    [⟨d.name, String.ofList (c.upTo m.stop.offset), c.offset, m.stop.offset, m.nodes, []⟩]⟩

end Match

variable {σ : Type}

namespace Grammar

/-- Matches what a name refers to, given how to match the body of a
definition. A name without a definition matches nothing. -/
def reference (note : Observer σ) (g : Grammar) (body : Definition → Matcher σ)
    (name : String) : Matcher σ := fun c s =>
  match g.find? name with
  | none => (none, note s (.unresolved name))
  | some d =>
    match body d c s with
    | (none, s) => (none, s)
    | (some m, s) => (some (m.wrap d c), s)

/-- Matches the symbol of a term once. -/
def symbol (note : Observer σ) (g : Grammar) (body : Definition → Matcher σ)
    (t : Term) : Matcher σ :=
  match t.symbol with
  | .literal text => Matcher.literal note text t.source
  | .reference name => g.reference note body name

/-- Matches a term as often as it asks for. -/
def term (note : Observer σ) (g : Grammar) (body : Definition → Matcher σ)
    (t : Term) : Matcher σ :=
  Matcher.times t.repetition (g.symbol note body t)

/-- Matches the first alternative of a definition that does match. -/
def alternatives (note : Observer σ) (g : Grammar) (body : Definition → Matcher σ)
    (d : Definition) : Matcher σ :=
  Matcher.firstOf (Matcher.sequence (g.term note body)) d.alternatives

/-- **Matches the body of a definition**, with `levels` rules allowed to be
under way at once, this one among them. -/
def body (note : Observer σ) (g : Grammar) : Nat → Definition → Matcher σ
  | 0, d => fun c s => (none, note s (.tooDeep d.name c.offset))
  | levels + 1, d => fun c s =>
    let (found, s) := g.alternatives note (body note g levels) d c (note s (.enter d.name c.offset))
    (found, note s .leave)

end Grammar

end OrderedBnf
